import Simloom.Loop.Edges

/-! Tracing perturbs nothing.

A run with `causal` logs why each step ran, and what the program observes. `untraced` forgets
both, of a loop, a log, a program or a drive. Everything the loop does commutes with
forgetting, whatever a call raises, so the untraced run is the traced one without its trace. -/
namespace Simloom
variable {R : RandomSource} {σ J κ : Type}

/-! ### Without the trace -/

/-- The event that `observe` logs, in causal mode only. -/
def observation (t : ℚ) (name value : String) (step : Option Nat) : Event :=
  ⟨"observe", t, [("name", .str name), ("value", .str value),
    ("step", (step.map fun n => Json.int n).getD .null)]⟩

def Deed.isObservation : Deed σ J → Bool
  | .emit event => event.kind == "observe"
  | _ => false

/-- The same code, where `observe` is a no-op. -/
def unobserved (code : Code R σ J) : Code R σ J := fun s now made t =>
  let effect := code s now made t
  {effect with deeds := effect.deeds.filter fun d => !d.isObservation}

/-- The same program, run without `causal`. -/
def LoopConfig.untraced (c : LoopConfig R σ J κ) : LoopConfig R σ J κ :=
  {c with
    causal := false
    code := {c.code with
      call := fun job => unobserved (c.code.call job)
      collect := unobserved c.code.collect}}

/-- A step event without its cause. -/
def Event.untraced (e : Event) : Event :=
  if e.kind = "step" then {e with fields := e.fields.filter fun f => f.1 ∉ ["woke_by", "via"]} else e

/-- A log without observations and causes. -/
def untracedLog (log : List Event) : List Event :=
  (log.filter fun e => e.kind ≠ "observe").map Event.untraced

theorem untracedLog_append (before later : List Event) :
    untracedLog (before ++ later) = untracedLog before ++ untracedLog later := by
  simp [untracedLog]

theorem untracedLog_plain {e : Event} (hstep : e.kind ≠ "step") (hobserve : e.kind ≠ "observe") :
    untracedLog [e] = [e] := by
  simp [untracedLog, Event.untraced, hstep, hobserve]

namespace SimLoop

def untraced (l : SimLoop R σ J κ) : SimLoop R σ J κ :=
  {l with causes := [], log := untracedLog l.log}

/-- What a call leaves, without the trace. -/
def untracedTurn {α : Type} (turn : SimLoop R σ J κ × α) : SimLoop R σ J κ × α :=
  (turn.1.untraced, turn.2)

/-- The same call, where `observe` is a no-op. -/
def Drive.untraced : Drive R σ J → Drive R σ J
  | .outside code => .outside (unobserved code)
  | d => d

variable {c : LoopConfig R σ J κ} {l : SimLoop R σ J κ}

/-! ### Code -/

theorem untraced_emit {kind : String} (hstep : kind ≠ "step") (hobserve : kind ≠ "observe")
    (fields : List (String × Json)) : l.untraced.emit kind fields = (l.emit kind fields).untraced := by
  have hplain : untracedLog [⟨kind, l.now, fields⟩] = [⟨kind, l.now, fields⟩] :=
    untracedLog_plain hstep hobserve
  unfold emit untraced
  dsimp only
  rw [untracedLog_append, hplain]
  rfl

theorem untraced_noteCause (h : Handle J) (via : String) :
    l.untraced.noteCause c.untraced h via = (l.noteCause c h via).untraced := by
  have hoff : l.untraced.noteCause c.untraced h via = l.untraced := by simp [noteCause, LoopConfig.untraced]
  rw [hoff]
  unfold noteCause
  split <;> rfl

theorem untraced_deed {d : Deed σ J} (hhonest : ∀ e, d = .emit e → e.kind ≠ "step")
    (hd : d.isObservation = false) : l.untraced.deed c.untraced d = (l.deed c d).untraced := by
  cases d with
  | callSoon call =>
    simp only [deed, untraced_noteCause]
    rfl
  | callAt time call =>
    simp only [deed, untraced_noteCause]
    rfl
  | emit event =>
    have hplain := untracedLog_plain (hhonest event rfl) (by simpa [Deed.isObservation] using hd)
    unfold deed untraced
    dsimp only
    rw [untracedLog_append, hplain]
  | _ => rfl

theorem untraced_observation {d : Deed σ J} (hd : d.isObservation = true) :
    (l.deed c d).untraced = l.untraced := by
  cases d with
  | emit event =>
    have hnone : untracedLog [event] = [] := by
      simpa [untracedLog, Deed.isObservation] using hd
    unfold deed untraced
    dsimp only
    rw [untracedLog_append, hnone, List.append_nil]
  | _ => cases hd

theorem untraced_deeds {deeds : List (Deed σ J)}
    (hhonest : ∀ d ∈ deeds, ∀ e, d = .emit e → e.kind ≠ "step") :
    (deeds.filter fun d => !d.isObservation).foldl (fun l d => l.deed c.untraced d) l.untraced =
      (deeds.foldl (fun l d => l.deed c d) l).untraced := by
  induction deeds generalizing l with
  | nil => rfl
  | cons d rest ih =>
    obtain ⟨hfirst, hrest⟩ := List.forall_mem_cons.mp hhonest
    have hnext := ih (l := l.deed c d) hrest
    cases hd : d.isObservation with
    | true =>
      rw [untraced_observation hd] at hnext
      simp only [List.filter, hd, Bool.not_true, List.foldl_cons, hnext]
    | false =>
      rw [← untraced_deed hfirst hd] at hnext
      simp only [List.filter, hd, Bool.not_false, List.foldl_cons, hnext]

/-- Running code commutes with forgetting the trace. -/
theorem untraced_perform {code : Code R σ J} (hhonest : Honest code) :
    l.untraced.perform c.untraced (unobserved code) = untracedTurn (l.perform c code) :=
  Prod.ext (untraced_deeds (l := {l with
    user := (code l.user l.now l.agenda.made l.tape).state
    tape := (code l.user l.now l.agenda.made l.tape).tape}) (hhonest _ _ _ _)) rfl

/-! ### Up to the step -/

theorem untraced_conclude (verdict : MonitorSet σ × Option Violation) :
    l.untraced.conclude verdict = untracedTurn (l.conclude verdict) := by
  obtain ⟨ms, v⟩ := verdict
  cases v with
  | none => rfl
  | some v =>
    have hplain : ∀ e : Event, e.kind = "invariant" → untracedLog [e] = [e] := by
      intro e he
      apply untracedLog_plain <;> simp [he]
    unfold conclude untracedTurn untraced
    dsimp only
    rw [untracedLog_append, hplain _ rfl]

theorem untraced_jump (target : ℚ) : l.untraced.jump target = (l.jump target).untraced := by
  have hemit : (l.arrive target).untraced.emit "clock_jump" [] = _ :=
    untraced_emit (by decide) (by decide) []
  unfold jump
  rw [apply_ite untraced, ← hemit]
  rfl

theorem untraced_reportDeadlock :
    l.untraced.reportDeadlock c.untraced = untracedTurn (l.reportDeadlock c) := by
  unfold reportDeadlock untracedTurn
  dsimp only
  rw [← untraced_emit (by decide) (by decide)]
  rfl

theorem untraced_await : l.untraced.await c.untraced =
    (l.await c).map untracedTurn untraced := by
  unfold await
  rw [show l.untraced.agenda = l.agenda from rfl]
  split
  · rw [untraced_reportDeadlock]
    rfl
  · next top rest _ =>
    rw [show l.untraced.nextDeadline = l.nextDeadline from rfl,
      show l.untraced.now = l.now from rfl, untraced_jump]
    split
    · rfl
    · next deadline _ =>
      have hcheck : l.untraced.checkDue = untracedTurn l.checkDue := untraced_conclude _
      have hlater : (l.untraced.arrive deadline).checkDue = untracedTurn (l.arrive deadline).checkDue :=
        untraced_conclude (l := l.arrive deadline) _
      rw [hcheck, hlater]
      split
      · rfl
      · split <;> rfl

theorem untraced_settle : l.untraced.settle c.untraced =
    (l.settle c).map untracedTurn untraced := by
  unfold settle
  rw [show l.untraced.tidy = l.tidy.untraced from rfl, untraced_await,
    show l.tidy.untraced.agenda = l.tidy.agenda from rfl]
  split <;> rfl

/-! ### The step -/

/-- The step event loses its cause, and the dictionary is empty either way. -/
theorem untraced_takeStep (index count : Nat) (h : Handle J) :
    l.untraced.takeStep c.untraced index count h = (l.takeStep c index count h).untraced := by
  have hfields : ((l.causeFields c h).1.filter fun f => f.1 ∉ ["woke_by", "via"]) = [] := by
    unfold causeFields
    split
    · split <;> simp
    · rfl
  have hbare : l.untraced.causeFields c.untraced h = ([], []) := rfl
  have hevent : ∀ fields, untracedLog [⟨"step", l.now, fields⟩] =
      [⟨"step", l.now, fields.filter fun f => f.1 ∉ ["woke_by", "via"]⟩] := by
    intro fields
    simp [untracedLog, Event.untraced]
  unfold takeStep emit
  rw [hbare]
  unfold untraced
  dsimp only
  rw [untracedLog_append]
  show _ = {l with
    agenda := l.agenda.take index
    causes := []
    log := untracedLog l.log ++ untracedLog [⟨"step", l.now, _⟩]}
  rw [hevent, List.filter_append, hfields]
  rfl

theorem untraced_finishStep (turn : SimLoop R σ J κ × Option PyException) :
    finishStep (untracedTurn turn) = untracedTurn (finishStep turn) := by
  obtain ⟨m, raised⟩ := turn
  cases raised with
  | some error => rfl
  | none =>
    have hcheck : m.bound.untraced.checkStep = untracedTurn m.bound.checkStep := untraced_conclude _
    show ite _ _ _ = untracedTurn (ite _ _ _)
    rw [apply_ite untracedTurn, ← hcheck]
    rfl

section Steps
variable (hhonest : HonestCode c.code)
include hhonest

theorem untraced_collectDue : l.untraced.collectDue c.untraced = (l.collectDue c).untraced := by
  have hgarbage : l.untraced.collectGarbage c.untraced = (l.collectGarbage c).untraced := by
    unfold collectGarbage
    rw [← untraced_emit (by decide) (by decide)]
    exact congrArg (fun turn => turn.1.emit "gc_collect" [])
      (untraced_perform (c := c) (l := l) hhonest.collect)
  unfold collectDue
  rw [apply_ite untraced, ← hgarbage]
  rfl

theorem untraced_runHandle (h : Handle J) :
    l.untraced.runHandle c.untraced h = untracedTurn (l.runHandle c h) :=
  untraced_perform (l := {l with agenda := l.agenda.run}) (hhonest.call h.call.job)

theorem untraced_execute (index count : Nat) (h : Handle J) :
    l.untraced.execute c.untraced index count h = untracedTurn (l.execute c index count h) := by
  unfold execute
  dsimp only
  rw [untraced_takeStep,
    show (l.takeStep c index count h).untraced.numberStep.countInstant =
      (l.takeStep c index count h).numberStep.countInstant.untraced from rfl,
    untraced_collectDue hhonest, untraced_runHandle hhonest, untraced_finishStep]
  rw [apply_ite untracedTurn]
  rfl

theorem untraced_choose : l.untraced.choose c.untraced = untracedTurn (l.choose c) := by
  unfold choose
  rw [show l.untraced.agenda = l.agenda from rfl]
  split
  · rfl
  · next first rest _ =>
    rw [show c.untraced.scheduler.pick first rest l.untraced.scheduler l.untraced.tape =
      c.scheduler.pick first rest l.scheduler l.tape from rfl]
    generalize c.scheduler.pick first rest l.scheduler l.tape = picked
    obtain ⟨error | index, scheduler, tape⟩ := picked
    · rfl
    · exact untraced_execute (l := {l with scheduler := scheduler, tape := tape}) hhonest _ _ _

theorem untraced_runOnce : l.untraced.runOnce c.untraced = untracedTurn (l.runOnce c) := by
  unfold runOnce
  rw [untraced_settle]
  cases l.settle c with
  | inl turn => rfl
  | inr m => exact untraced_choose (l := m.wake) hhonest

theorem untraced_drainStep (index count : Nat) (h : Handle J) :
    l.untraced.drainStep c.untraced index count h = untracedTurn (l.drainStep c index count h) := by
  unfold drainStep
  rw [untraced_takeStep, untraced_runHandle hhonest]

theorem untraced_drainReady (limit : Nat) :
    l.untraced.drainReady c.untraced limit = untracedTurn (l.drainReady c limit) := by
  induction limit generalizing l with
  | zero => rfl
  | succ limit ih =>
    unfold drainReady
    dsimp only
    rw [show l.untraced.agenda = l.agenda from rfl]
    split
    · rfl
    · next first rest _ =>
      rw [show c.untraced.scheduler.pick first rest l.untraced.scheduler l.untraced.tape =
        c.scheduler.pick first rest l.scheduler l.tape from rfl]
      generalize c.scheduler.pick first rest l.scheduler l.tape = picked
      obtain ⟨error | index, scheduler, tape⟩ := picked
      · rfl
      · dsimp only
        generalize hother : drainStep c.untraced _ index (rest.length + 1) _ = other
        generalize hturn : drainStep c _ index (rest.length + 1) _ = turn
        have hstep := hother.symm.trans (untraced_drainStep (l := {l with
          agenda := l.agenda.compact, scheduler := scheduler, tape := tape}) hhonest index _ _)
        rw [hturn] at hstep
        rw [hstep]
        obtain ⟨m, raised⟩ := turn
        cases raised with
        | some error => rfl
        | none => exact ih (l := m.bound)

/-! ### Whole runs -/

theorem untraced_runForever (fuel : Nat) :
    runForever c.untraced fuel l.untraced = (runForever c fuel l).map untracedTurn := by
  induction fuel generalizing l with
  | zero => rfl
  | succ fuel ih =>
    unfold runForever
    rw [untraced_runOnce hhonest, show l.untraced.stopping = l.stopping from rfl]
    split
    · rfl
    · generalize l.runOnce c = turn
      obtain ⟨m, raised⟩ := turn
      cases raised with
      | some error => rfl
      | none => exact ih (l := m)

theorem untraced_drive {d : Drive R σ J} (hd : Chronicle.HonestDrive d) :
    l.untraced.drive c.untraced d.untraced = untracedTurn (l.drive c d) := by
  cases d with
  | once => exact untraced_runOnce hhonest
  | drain limit => exact untraced_drainReady hhonest limit
  | outside code =>
    show ((l.untraced.perform c.untraced (unobserved code)).1,
      (l.untraced.perform c.untraced (unobserved code)).2.map LoopError.raised) = _
    rw [untraced_perform hd]
    rfl
  | finalize =>
    have hfinal : l.untraced.conclude (l.monitors.finalize l.user l.now) = _ := untraced_conclude _
    show ite _ _ _ = untracedTurn (ite _ _ _)
    rw [apply_ite untracedTurn, ← hfinal]
    rfl
  | leave | unmonitor | revive => rfl

theorem untraced_after {ds : List (Drive R σ J)} (hds : ∀ d ∈ ds, Chronicle.HonestDrive d) :
    l.untraced.after c.untraced (ds.map Drive.untraced) = (l.after c ds).untraced := by
  induction ds generalizing l with
  | nil => rfl
  | cons d rest ih =>
    obtain ⟨hd, hrest⟩ := List.forall_mem_cons.mp hds
    have hsame := untraced_drive (c := c) (l := l) hhonest hd
    show (l.untraced.drive c.untraced d.untraced).1.after c.untraced (rest.map Drive.untraced) = _
    rw [hsame]
    exact ih hrest

theorem untraced_runMain (result : σ → Option PyException) (fuel : Nat) :
    runMain c.untraced l.untraced result fuel = (runMain c l result fuel).map untracedTurn := by
  unfold runMain
  rw [untraced_runForever hhonest]
  cases runForever c fuel l with
  | none => rfl
  | some turn =>
    obtain ⟨m, raised⟩ := turn
    cases raised with
    | some error => rfl
    | none =>
      have hfinal := untraced_drive (l := m) hhonest (d := .finalize) trivial
      simp only [Option.map_some, untracedTurn]
      rw [show m.untraced.user = m.user from rfl]
      cases result m.user with
      | some error => rfl
      | none => exact congrArg some hfinal

end Steps

/-- **Tracing perturbs nothing.** The same program with and without `causal`, whatever is
done with the loop: the same steps at the same times, the same state, clock, draws and
monitors, and a log that differs by observations and causes only; each further call raises
the same, and a run of the main task ends with the same, or goes on with the other. -/
theorem tracing_perturbs_nothing {c : LoopConfig R σ J κ} (hhonest : HonestCode c.code) (epoch : ℚ)
    (user : σ) (tape : Tape R) (scheduler : κ) {ds : List (Drive R σ J)}
    (hds : ∀ d ∈ ds, Chronicle.HonestDrive d) :
    let l := (start epoch user tape scheduler).after c ds
    let l' := (start epoch user tape scheduler).after c.untraced (ds.map Drive.untraced)
    l' = l.untraced ∧
    (∀ d, Chronicle.HonestDrive d → (l'.drive c.untraced d.untraced).2 = (l.drive c d).2) ∧
    ∀ result fuel, runMain c.untraced l' result fuel = (runMain c l result fuel).map untracedTurn := by
  intro l l'
  have hsame : l' = l.untraced := untraced_after (l := start epoch user tape scheduler) hhonest hds
  refine ⟨hsame, fun d hd => ?_, fun result fuel => ?_⟩
  · rw [hsame, untraced_drive hhonest hd]
    rfl
  · rw [hsame, untraced_runMain hhonest]

/-- The first callback calls the second, and observes something. -/
def observing : Nat → List (Deed Nat Nat)
  | 0 => [.callSoon ⟨1, none⟩, .emit (observation 0 "x" "1" none)]
  | _ => []

theorem honest_observing : HonestCode (Chronicle.causalLoop observing).code where
  call := by
    intro job _ _ _ _ d hd e he
    obtain _ | job := job
    · change d ∈ observing 0 at hd
      simp only [observing, List.mem_cons, List.not_mem_nil, or_false] at hd
      rcases hd with rfl | rfl
      · cases he
      · cases he
        decide
    · exact absurd hd List.not_mem_nil
  collect := fun _ _ _ _ d hd => absurd hd List.not_mem_nil

theorem tracing_perturbs_observing :
    let c := Chronicle.causalLoop observing
    let ds := [does [.callSoon ⟨0, none⟩], .once]
    let l := (start 0 0 (.generate 0) ()).after c ds
    let l' := (start 0 0 (.generate 0) ()).after c.untraced (ds.map Drive.untraced)
    l' = l.untraced ∧
    (∀ d, Chronicle.HonestDrive d → (l'.drive c.untraced d.untraced).2 = (l.drive c d).2) ∧
    ∀ result fuel, runMain c.untraced l' result fuel = (runMain c l result fuel).map untracedTurn :=
  tracing_perturbs_nothing honest_observing 0 0 (.generate 0) () (by
    intro d hd
    simp only [List.mem_cons, List.not_mem_nil, or_false] at hd
    rcases hd with rfl | rfl
    · exact Chronicle.honest_does (fun d hd e he => (by
        simp only [List.mem_cons, List.not_mem_nil, or_false] at hd
        cases hd
        cases he))
    · trivial)

end SimLoop

end Simloom
