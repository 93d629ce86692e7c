import Simloom.Loop.Edges
import Simloom.Run.EventLog

/-! Whatever woke a step was logged before it.

This takes no tracing of handles: in any run, with drains and with timers that equal one
another, a step of the log names no cause or the number of an earlier one. -/
namespace Simloom.SimLoop
open Theory
variable {R : RandomSource} {σ J κ : Type} {c : LoopConfig R σ J κ} {l l' : SimLoop R σ J κ}

/-- Step number `number` has fields of its own names, says what ran, and names no cause or one
before it. -/
structure WokenBefore (number : Nat) (e : Event) : Prop where
  admissible : e.admissible = true
  ran : ∃ label, e.field "ran" = some (.str label)
  cause : ∀ v ∈ e.field "woke_by", v = .null ∨ ∃ cause < number, v = .int cause

/-- No cause is noted that was not logged. -/
structure Rooted (l : SimLoop R σ J κ) : Prop where
  numbered : l.stepSeq ≤ l.stepCount
  current : ∀ number ∈ l.currentStep, number < l.stepCount
  named : ∀ entry ∈ l.causes, ∀ number ∈ entry.2.wokeBy, number < l.stepCount
  woken : ∀ number, ∀ e ∈ l.steps[number]?, WokenBefore number e

theorem rooted_start (epoch : ℚ) (user : σ) (tape : Tape R) (scheduler : κ) :
    Rooted (start epoch user tape scheduler : SimLoop R σ J κ) where
  numbered := le_rfl
  current := fun _ h => by cases h
  named := fun _ h => by cases h
  woken := fun _ _ h => by cases h

/-- What neither steps nor notes causes. -/
theorem Rooted.still (hr : l.Rooted) (hcauses : l'.causes = l.causes)
    (hcurrent : l'.currentStep = l.currentStep) (hseq : l'.stepSeq = l.stepSeq)
    (hsteps : l'.steps = l.steps) : l'.Rooted where
  numbered := by
    rw [hseq, stepCount, hsteps]
    exact hr.numbered
  current := by
    rw [hcurrent, stepCount, hsteps]
    exact hr.current
  named := by
    rw [hcauses, stepCount, hsteps]
    exact hr.named
  woken := by
    rw [hsteps]
    exact hr.woken

theorem Rooted.quiet (hr : l.Rooted) (hq : Quiet l l') : l'.Rooted :=
  hr.still hq.causes hq.currentStep hq.stepSeq hq.steps

/-! ### Running code -/

theorem Rooted.noteCause (hr : l.Rooted) (h : Handle J) (via : String) : (l.noteCause c h via).Rooted := by
  unfold SimLoop.noteCause
  split
  · refine { numbered := hr.numbered, current := hr.current, named := ?_, woken := hr.woken }
    intro entry hentry number hnumber
    rcases mem_setCause hentry with hold | ⟨hcause, -⟩
    · exact hr.named entry hold number hnumber
    · rw [hcause] at hnumber
      exact hr.current number hnumber
  · exact hr

theorem Rooted.deed (hr : l.Rooted) {d : Deed σ J} (hhonest : ∀ e, d = .emit e → e.kind ≠ "step") :
    (l.deed c d).Rooted := by
  cases d with
  | callSoon call => exact (hr.noteCause (l.agenda.next call none) "soon").still rfl rfl rfl rfl
  | callAt time call => exact (hr.noteCause (l.agenda.next call (some time)) "timer").still rfl rfl rfl rfl
  | emit e =>
    refine hr.still rfl rfl rfl ?_
    simp [steps, SimLoop.deed, hhonest e rfl]
  | _ => exact hr.still rfl rfl rfl rfl

theorem Rooted.deeds {ds : List (Deed σ J)} (hr : l.Rooted)
    (hhonest : ∀ d ∈ ds, ∀ e, d = .emit e → e.kind ≠ "step") :
    (ds.foldl (fun l d => l.deed c d) l).Rooted := by
  induction ds generalizing l with
  | nil => exact hr
  | cons d rest ih =>
    exact ih (hr.deed (hhonest d List.mem_cons_self)) fun d hd => hhonest d (List.mem_cons_of_mem _ hd)

theorem Rooted.perform {code : Code R σ J} (hr : l.Rooted) (hhonest : Honest code) :
    (l.perform c code).1.Rooted := by
  apply Rooted.deeds _ (hhonest _ _ _ _)
  exact hr.still rfl rfl rfl rfl

/-! ### Steps -/

theorem causeFields_subset (h : Handle J) : (l.causeFields c h).2 ⊆ l.causes := by
  unfold causeFields
  split
  · split
    · exact fun _ hentry => hentry
    · exact fun _ hentry => List.eraseP_subset hentry
  · exact fun _ hentry => hentry

/-- The step that is logged is woken by none, or by what was noted. -/
theorem Rooted.wokenBefore (hr : l.Rooted) (index count : Nat) (h : Handle J) :
    ∃ e, (l.takeStep c index count h).steps = l.steps ++ [e] ∧ WokenBefore l.stepCount e := by
  refine ⟨_, by simp [steps, takeStep, emit]; rfl, ?_⟩
  unfold causeFields
  split
  · cases hfind : l.causes.find? fun entry => l.equalHandles c h entry.1 with
    | none => exact ⟨by simp [Event.admissible, reservedFields], by simp [Event.field], by simp [Event.field]⟩
    | some entry =>
      have hnamed := hr.named entry (List.mem_of_find?_eq_some hfind)
      obtain ⟨key, wokeBy, via⟩ := entry
      refine ⟨by simp [Event.admissible, reservedFields], by simp [Event.field], ?_⟩
      cases wokeBy with
      | none => simp [Event.field]
      | some number => simpa [Event.field] using hnamed number rfl
  · exact ⟨by simp [Event.admissible, reservedFields], by simp [Event.field], by simp [Event.field]⟩

/-- A handle is taken and its step is logged; the step is numbered or not. -/
theorem Rooted.take (hr : l.Rooted) (index count : Nat) (h : Handle J)
    (hcauses : l'.causes = (l.takeStep c index count h).causes)
    (hsteps : l'.steps = (l.takeStep c index count h).steps)
    (hseq : l'.stepSeq ≤ l.stepCount + 1) (hcurrent : ∀ number ∈ l'.currentStep, number ≤ l.stepCount) :
    l'.Rooted := by
  obtain ⟨e, hevent, hwoken⟩ := hr.wokenBefore (c := c) index count h
  rw [hevent] at hsteps
  have hcount : l'.stepCount = l.stepCount + 1 := by simp [stepCount, hsteps]
  refine { numbered := hcount ▸ hseq, current := ?_, named := ?_, woken := ?_ }
  · intro number hnumber
    have hle := hcurrent number hnumber
    omega
  · intro entry hentry number hnumber
    rw [hcauses] at hentry
    have hlt := hr.named entry (causeFields_subset h hentry) number hnumber
    omega
  · intro number e' he'
    rw [hsteps] at he'
    by_cases hlt : number < l.steps.length
    · rw [List.getElem?_append_left hlt] at he'
      exact hr.woken number e' he'
    · have hnumber : number = l.stepCount := by
        have hbound := (List.getElem?_eq_some_iff.mp he').1
        rw [List.length_append, List.length_singleton] at hbound
        unfold stepCount
        omega
      rw [hnumber, stepCount, List.getElem?_concat_length, Option.mem_def, Option.some.injEq] at he'
      rw [hnumber, ← he']
      exact hwoken

section Steps
variable (hhonest : HonestCode c.code)
include hhonest

theorem Rooted.runHandle (hr : l.Rooted) (h : Handle J) : (l.runHandle c h).1.Rooted := by
  apply Rooted.perform _ (hhonest.call _)
  exact hr.still rfl rfl rfl rfl

theorem Rooted.collectDue (hr : l.Rooted) : (l.collectDue c).Rooted := by
  unfold SimLoop.collectDue
  split
  · exact (hr.perform hhonest.collect).quiet (quiet_log (show "gc_collect" ≠ "step" by decide))
  · exact hr

theorem Rooted.execute (hr : l.Rooted) (index count : Nat) (h : Handle J) :
    (l.execute c index count h).1.Rooted := by
  have htaken : (((l.takeStep c index count h).numberStep).countInstant).Rooted := by
    refine hr.take (c := c) index count h rfl rfl ?_ ?_
    · exact Nat.succ_le_succ hr.numbered
    · intro number hnumber
      exact Option.some.inj hnumber ▸ hr.numbered
  unfold SimLoop.execute
  dsimp only
  split
  · exact htaken.still rfl rfl rfl rfl
  · exact ((htaken.collectDue hhonest).runHandle hhonest h).quiet (quiet_finishStep _)

theorem Rooted.runOnce (hr : l.Rooted) (hhand : l.agenda.hand = none) : (l.runOnce c).1.Rooted := by
  cases hnext : l.nextStep c with
  | none => exact hr.quiet (runOnce_of_none hhand hnext)
  | some p =>
    obtain ⟨hrun, hquiet, -⟩ := runOnce_of_some hhand hnext
    rw [hrun]
    exact (hr.quiet hquiet).execute hhonest p.index p.count p.handle

/-- A step of a drain has the number of the step before it for its own. -/
theorem Rooted.drained (hr : l.Rooted) (hhand : l.agenda.hand = none) : (l.drainReady c 1).1.Rooted := by
  cases hnext : l.nextDrained c with
  | none => exact hr.quiet (drainReady_of_none hnext)
  | some p =>
    obtain ⟨hrest, hquiet, -⟩ := drainReady_of_some hhand hnext
    have hpicked := hr.quiet hquiet
    have htaken : (p.loop.takeStep c p.index p.count p.handle).Rooted := by
      refine hpicked.take (c := c) p.index p.count p.handle rfl rfl ?_ ?_
      · exact Nat.le_succ_of_le hpicked.numbered
      · intro number hnumber
        exact (hpicked.current number hnumber).le
    exact (htaken.runHandle hhonest p.handle).quiet hrest

theorem Rooted.drainReady (limit : Nat) (hr : l.Rooted) (hhand : l.agenda.hand = none) :
    (l.drainReady c limit).1.Rooted := by
  induction limit generalizing l with
  | zero => exact hr
  | succ limit ih =>
    have hdrained := hr.drained hhonest hhand
    have hidle : (l.drainReady c 1).1.agenda.hand = none :=
      (show Follows True True l.agenda _ ∧ _ from drainReady_follows 1 hhand).2
    rw [drainReady_succ]
    generalize l.drainReady c 1 = turn at hdrained hidle ⊢
    obtain ⟨m, e⟩ := turn
    cases e with
    | none => exact hdrained
    | some e =>
      cases e with
      | drainLimit => exact ih hdrained hidle
      | _ => exact hdrained

theorem Rooted.drive (hr : l.Rooted) (hhand : l.agenda.hand = none) {e : Drive R σ J}
    (hdrive : Chronicle.HonestDrive e) : (l.drive c e).1.Rooted := by
  cases e with
  | once => exact hr.runOnce hhonest hhand
  | drain limit => exact hr.drainReady hhonest limit hhand
  | outside code => exact hr.perform hdrive
  | finalize =>
    apply hr.quiet
    unfold SimLoop.drive finalizeMonitors
    dsimp only
    split
    · exact .refl _
    · exact quiet_conclude _
  | leave | unmonitor | revive => exact hr.still rfl rfl rfl rfl

/-- In any run. -/
theorem rooted_after (epoch : ℚ) (user : σ) (tape : Tape R) (scheduler : κ) (es : List (Drive R σ J))
    (hdrives : ∀ e ∈ es, Chronicle.HonestDrive e) :
    ((start epoch user tape scheduler).after c es).Rooted := by
  let I (l : SimLoop R σ J κ) : Prop := l.Rooted ∧ l.agenda.hand = none
  have hkeeps : Transition.Keeps (move c) (fun _ e => Chronicle.HonestDrive e) I := by
    rintro l e l' hdrive ⟨hr, hhand⟩ hmove
    refine Option.some.inj hmove ▸ ⟨hr.drive hhonest hhand hdrive, ?_⟩
    exact (show Follows True True l.agenda _ ∧ _ from
      drive_follows hhand e (fun _ _ => trivial) fun _ _ => trivial).2
  have hlast : I ((start epoch user tape scheduler).after c es) :=
    hkeeps.run (Transition.along_of_forall (fun e he _ => hdrives e he) _)
      ⟨rooted_start epoch user tape scheduler, rfl⟩ (run_after es)
  exact hlast.1

end Steps

end Simloom.SimLoop
