import Simloom.Loop.Edges
import Simloom.Loop.Drift

/-! A wakeup keeps to the clock.

A step that a timer wakes comes no earlier than the step that made the timer. A step that
`call_soon` wakes comes at the very time of the step that called it, on two conditions:
whoever calls `call_soon` does so while the clock is where the loop's current step was
logged (`OnStep`), and whatever a crash parked is revived before the clock moves on
(`Prompt`). -/
namespace Simloom
open Theory Chronicle
variable {R : RandomSource} {σ J κ : Type}

/-- How the handle of a step came to be scheduled. -/
def Event.via (e : Event) : Option String :=
  match e.field "via" with
  | some (.str via) => some via
  | _ => none

/-- A step that was called soon comes when the step that called it does, and one that a
timer wakes no earlier than the step that made the timer. -/
def InStep (steps : List Event) (e : Event) : Prop :=
  ∀ number : Int, e.wokeBy = some (some number) →
    ∃ cause, ∃ place : Nat, number = place ∧ steps[place]? = some cause ∧
      (e.via = some "soon" → e.t = cause.t) ∧
      (e.via = some "timer" → cause.t ≤ e.t)

/-- The temporal law of the steps in a log. -/
def TemporalLaw (steps : List Event) : Prop := ∀ e ∈ steps, InStep steps e

theorem InStep.append {steps : List Event} {e : Event} (h : InStep steps e) (later : List Event) :
    InStep (steps ++ later) e := by
  intro number hnumber
  obtain ⟨cause, place, hplace, hcause, htimes⟩ := h number hnumber
  obtain ⟨hlt, _⟩ := List.getElem?_eq_some_iff.mp hcause
  exact ⟨cause, place, hplace, (List.getElem?_append_left hlt).trans hcause, htimes⟩

theorem TemporalLaw.append {steps : List Event} {e : Event} (hlaw : TemporalLaw steps)
    (he : InStep steps e) : TemporalLaw (steps ++ [e]) := by
  intro e' hin
  rcases List.mem_append.mp hin with hin | hin
  · exact (hlaw e' hin).append [e]
  · rw [List.mem_singleton.mp hin]
    exact he.append [e]

namespace SimLoop

/-! ### Where the clock stands -/

/-- When a step was logged. -/
def stepTime (l : SimLoop R σ J κ) (number : Nat) : Option ℚ := l.steps[number]?.map Event.t

/-- The clock is where the current step was logged. -/
def OnStep (l : SimLoop R σ J κ) : Prop := ∀ number ∈ l.currentStep, l.stepTime number = some l.now

instance (l : SimLoop R σ J κ) : Decidable l.OnStep :=
  inferInstanceAs (Decidable (∀ number ∈ l.currentStep, l.stepTime number = some l.now))

/-- The clock is where the step was logged that called the handle soon. -/
def Prompt (l : SimLoop R σ J κ) (h : Handle J) : Prop :=
  ∀ entry ∈ l.causes, entry.1.id = h.id → entry.2.via = "soon" →
    ∀ number ∈ entry.2.wokeBy, l.stepTime number = some l.now

instance (l : SimLoop R σ J κ) (h : Handle J) : Decidable (l.Prompt h) :=
  inferInstanceAs (Decidable (∀ entry ∈ l.causes, entry.1.id = h.id → entry.2.via = "soon" →
    ∀ number ∈ entry.2.wokeBy, l.stepTime number = some l.now))

def isCallSoon : Deed σ J → Bool
  | .callSoon _ => true
  | _ => false

/-- Code calls soon only where the clock is where the current step was logged. -/
def CodePrompt (l : SimLoop R σ J κ) (code : Code R σ J) : Prop :=
  (code l.user l.now l.agenda.made l.tape).deeds.any isCallSoon = true → l.OnStep

instance (l : SimLoop R σ J κ) (code : Code R σ J) : Decidable (l.CodePrompt code) :=
  inferInstanceAs (Decidable (_ = true → l.OnStep))

variable (c : LoopConfig R σ J κ)

/-- So does what a step runs. -/
def StepPrompt (p : Pick R σ J κ) : Prop :=
  let l := ((p.loop.takeStep c p.index p.count p.handle).numberStep).countInstant
  ¬c.maxStepsPerInstant < l.instantSteps →
    (c.gcInterval ≠ 0 ∧ (l.stepSeq : Int) % c.gcInterval = 0 → l.CodePrompt c.code.collect) ∧
    CodePrompt {l.collectDue c with agenda := (l.collectDue c).agenda.run}
      (c.code.call p.handle.call.job)

instance (p : Pick R σ J κ) : Decidable (StepPrompt c p) :=
  inferInstanceAs (Decidable (¬_ < _ → (_ → CodePrompt _ _) ∧ CodePrompt _ _))

/-- So does what a step of a drain runs. -/
def DrainedPrompt (p : Pick R σ J κ) : Prop :=
  let l := p.loop.takeStep c p.index p.count p.handle
  CodePrompt {l with agenda := l.agenda.run} (c.code.call p.handle.call.job)

instance (p : Pick R σ J κ) : Decidable (DrainedPrompt c p) :=
  inferInstanceAs (Decidable (CodePrompt _ _))

/-- So does what a drain runs. -/
def DrainPrompt : Nat → SimLoop R σ J κ → Prop
  | 0, _ => True
  | limit + 1, l => (∀ p ∈ l.nextDrained c, DrainedPrompt c p) ∧
    match (l.drainReady c 1).2 with
    | some .drainLimit => DrainPrompt limit (l.drainReady c 1).1
    | _ => True

instance decidableDrainPrompt : (limit : Nat) → (l : SimLoop R σ J κ) →
    Decidable (DrainPrompt c limit l)
  | 0, _ => inferInstanceAs (Decidable True)
  | limit + 1, l =>
    have : Decidable (match (l.drainReady c 1).2 with
      | some .drainLimit => DrainPrompt c limit (l.drainReady c 1).1
      | _ => True) :=
      match (l.drainReady c 1).2 with
      | some .drainLimit => decidableDrainPrompt limit (l.drainReady c 1).1
      | none | some (.deadlock _) | some (.livelock _ _) | some (.violation _) | some (.refused _)
      | some (.raised _) => isTrue trivial
    inferInstanceAs (Decidable ((∀ p ∈ l.nextDrained c, DrainedPrompt c p) ∧ _))

/-- What a call asks of the clock. -/
def Dateable (l : SimLoop R σ J κ) : Drive R σ J → Prop
  | .once => ∀ p ∈ l.nextStep c, StepPrompt c p
  | .drain limit => DrainPrompt c limit l
  | .outside code => l.CodePrompt code
  | .revive => ∀ h ∈ l.agenda.parked, l.agenda.isCancelled h = false → l.Prompt h
  | _ => True

instance (l : SimLoop R σ J κ) : (e : Drive R σ J) → Decidable (l.Dateable c e)
  | .once => inferInstanceAs (Decidable (∀ p ∈ l.nextStep c, StepPrompt c p))
  | .drain limit => decidableDrainPrompt c limit l
  | .outside code => inferInstanceAs (Decidable (l.CodePrompt code))
  | .revive => inferInstanceAs
    (Decidable (∀ h ∈ l.agenda.parked, l.agenda.isCancelled h = false → l.Prompt h))
  | .finalize | .leave | .unmonitor => inferInstanceAs (Decidable True)

variable {c} {l l' : SimLoop R σ J κ} {h k : Handle J}

/-! ### The invariant -/

/-- What the loop notes of its causes can be dated by its log. -/
structure Dated (l : SimLoop R σ J κ) : Prop where
  law : TemporalLaw l.steps
  past : ∀ e ∈ l.steps, e.t ≤ l.now
  numbered : l.stepSeq ≤ l.stepCount
  current : ∀ number ∈ l.currentStep, number < l.stepCount
  distinct : l.agenda.Distinct
  keys : ∀ entry ∈ l.causes, entry.1.id < l.agenda.made
  named : ∀ entry ∈ l.causes, ∀ number ∈ entry.2.wokeBy, number < l.stepCount
  untimed : ∀ entry ∈ l.causes, entry.2.via = "soon" → entry.1.timer = none
  ready : ∀ h ∈ l.agenda.ready, l.agenda.isCancelled h = false → l.Prompt h
  scheduled : ∀ h ∈ l.agenda.scheduled, ∀ entry ∈ l.causes, entry.1.id = h.id → entry.2.via ≠ "soon"

theorem dated_start (epoch : ℚ) (user : σ) (tape : Tape R) (scheduler : κ) :
    (start epoch user tape scheduler : SimLoop R σ J κ).Dated where
  law := fun _ he => nomatch he
  past := fun _ he => nomatch he
  numbered := le_rfl
  current := fun _ hn => nomatch hn
  distinct := Agenda.distinct_start epoch
  keys := fun _ he => nomatch he
  named := fun _ he => nomatch he
  untimed := fun _ he => nomatch he
  ready := fun _ hin => nomatch hin
  scheduled := fun _ hin => nomatch hin

theorem Passive.stepCount (hp : Passive l l') : l'.stepCount = l.stepCount := by
  unfold SimLoop.stepCount
  rw [hp.steps]

theorem Passive.prompt (hp : Passive l l') (hnow : l'.now = l.now) (h : l.Prompt k) :
    l'.Prompt k := by
  intro entry hentry hid hvia number hnumber
  unfold stepTime
  rw [hp.steps, hnow]
  exact h entry (hp.causes ▸ hentry) hid hvia number hnumber

theorem Dated.passive (hd : l.Dated) (hp : Passive l l') : l'.Dated where
  law := hp.steps ▸ hd.law
  past e he := (hd.past e (hp.steps ▸ he)).trans hp.drift.now
  numbered := by
    rw [hp.stepSeq, hp.stepCount]
    exact hd.numbered
  current := by
    rw [hp.currentStep, hp.stepCount]
    exact hd.current
  distinct := hp.distinct hd.distinct
  keys := by
    rw [hp.causes, hp.made]
    exact hd.keys
  named := by
    rw [hp.causes, hp.stepCount]
    exact hd.named
  untimed := hp.causes ▸ hd.untimed
  ready h hin hlive := by
    rcases hp.drift.ready h hin hlive with ⟨hnow, hin, hlive⟩ | hin
    · exact hp.prompt hnow (hd.ready h hin hlive)
    · -- what a timer woke was not called soon
      intro entry hentry hid hvia
      exact absurd hvia (hd.scheduled h hin entry (hp.causes ▸ hentry) hid)
  scheduled h hin := by
    rw [hp.causes]
    exact hd.scheduled h (hp.drift.scheduled h hin)

/-! ### New handles -/

namespace Dated
variable (hd : l.Dated)
include hd

/-- An entry is an old one, or was set for the new handle. -/
theorem entered (he : Enters c l l' h) {entry : Handle J × Cause} (hentry : entry ∈ l'.causes) :
    entry ∈ l.causes ∨ entry.2 = ⟨l.currentStep, h.via⟩ ∧
      (entry.1 = h ∨ h.timer.isSome ∧ entry.1.id < l.agenda.made) := by
  refine (mem_setCause (he.causes ▸ hentry)).imp_right fun ⟨hcause, hkey⟩ => ⟨hcause, ?_⟩
  refine hkey.imp_right fun ⟨heq, hold⟩ => ?_
  obtain ⟨old, hin, hkey⟩ := List.mem_map.mp hold
  have hlt : entry.1.id < l.agenda.made := hkey ▸ hd.keys old hin
  refine ⟨?_, hlt⟩
  unfold equalHandles at heq
  split at heq
  next ht => exact (Bool.and_eq_true_iff.mp ht).1
  next =>
    have hid : h.id = entry.1.id := beq_iff_eq.mp heq
    exact absurd (he.id.symm.trans hid) (Nat.ne_of_gt hlt)

/-- What was called soon and is no new handle has an old entry. -/
theorem old_entry (he : Enters c l l' h) {entry : Handle J × Cause} (hentry : entry ∈ l'.causes)
    (hid : entry.1.id ≠ l.agenda.made) (hvia : entry.2.via = "soon") : entry ∈ l.causes := by
  rcases hd.entered he hentry with hold | ⟨hcause, rfl | ⟨htimer, _⟩⟩
  · exact hold
  · exact absurd he.id hid
  · rw [hcause] at hvia
    simp [Handle.via, htimer] at hvia

/-- A handle is made. One that is called soon is made where the current step was logged. -/
theorem enter (he : Enters c l l' h) (hnow : l'.now = l.now)
    (hready : ∀ k ∈ l'.agenda.ready, k ∈ l.agenda.ready ∨ k = h)
    (hscheduled : ∀ k ∈ l'.agenda.scheduled, k ∈ l.agenda.scheduled ∨ k = h ∧ h.via ≠ "soon")
    (honStep : h.via = "soon" → l.OnStep) : l'.Dated where
  law := he.steps ▸ hd.law
  past e hin := by
    rw [hnow]
    exact hd.past e (he.steps ▸ hin)
  numbered := by
    rw [he.stepSeq, he.stepCount]
    exact hd.numbered
  current := by
    rw [he.currentStep, he.stepCount]
    exact hd.current
  distinct := he.distinct
  keys entry hentry := by
    rw [he.made]
    rcases hd.entered he hentry with hold | ⟨_, rfl | ⟨_, hlt⟩⟩
    · exact Nat.lt_succ_of_lt (hd.keys entry hold)
    · exact he.id ▸ Nat.lt_succ_self _
    · exact Nat.lt_succ_of_lt hlt
  named entry hentry number hnumber := by
    rw [he.stepCount]
    rcases hd.entered he hentry with hold | ⟨hcause, _⟩
    · exact hd.named entry hold number hnumber
    · rw [hcause] at hnumber
      exact hd.current number hnumber
  untimed entry hentry hvia := by
    rcases hd.entered he hentry with hold | ⟨hcause, hkey⟩
    · exact hd.untimed entry hold hvia
    · rw [hcause] at hvia
      have htimer : h.timer = none := by
        cases htimer : h.timer with
        | none => rfl
        | some time => simp [Handle.via, htimer] at hvia
      rcases hkey with hkey | ⟨hsome, _⟩
      · rw [hkey, htimer]
      · simp [htimer] at hsome
  ready k hin hlive entry hentry hid hvia number hnumber := by
    unfold stepTime
    rw [he.steps, hnow]
    rw [he.isCancelled] at hlive
    rcases hready k hin with hold | rfl
    · have hlt : k.id < l.agenda.made :=
        mem_pending_lt hd.distinct (List.mem_append_left _ (List.mem_append_left _ hold))
      have hentry := hd.old_entry he hentry (hid ▸ Nat.ne_of_lt hlt) hvia
      exact hd.ready k hold hlive entry hentry hid hvia number hnumber
    · rcases hd.entered he hentry with hold | ⟨hcause, _⟩
      · exact absurd (hid.trans he.id) (Nat.ne_of_lt (hd.keys entry hold))
      · rw [hcause] at hvia hnumber
        exact honStep hvia number hnumber
  scheduled k hin entry hentry hid hvia := by
    rcases hscheduled k hin with hold | ⟨rfl, hsoon⟩
    · have hlt : k.id < l.agenda.made :=
        mem_pending_lt hd.distinct (List.mem_append_left _ (List.mem_append_right _ hold))
      have hentry := hd.old_entry he hentry (hid ▸ Nat.ne_of_lt hlt) hvia
      exact hd.scheduled k hold entry hentry hid hvia
    · rcases hd.entered he hentry with hold | ⟨hcause, _⟩
      · exact absurd (hid.trans he.id) (Nat.ne_of_lt (hd.keys entry hold))
      · rw [hcause] at hvia
        exact hsoon hvia

end Dated

/-! ### Running code -/

theorem noteCause_log (via : String) : (l.noteCause c h via).log = l.log := by
  unfold noteCause
  split <;> rfl

theorem noteCause_currentStep (via : String) :
    (l.noteCause c h via).currentStep = l.currentStep := by
  unfold noteCause
  split <;> rfl

section Deeds
variable {d : Deed σ J} (hhonest : ∀ e, d = .emit e → e.kind ≠ "step")
include hhonest

/-- A deed leaves the clock and the current step where they are. -/
theorem deed_onStep (hon : l.OnStep) : (l.deed c d).OnStep := by
  have hsteps : (l.deed c d).steps = l.steps := by
    cases d with
    | callSoon call => simp [steps, deed, noteCause_log]
    | callAt time call => simp [steps, deed, noteCause_log]
    | emit e => simp [steps, deed, hhonest e rfl]
    | _ => rfl
  have hcurrent : (l.deed c d).currentStep = l.currentStep := by
    cases d with
    | callSoon call => simp [deed, noteCause_currentStep]
    | callAt time call => simp [deed, noteCause_currentStep]
    | _ => rfl
  have hnow : (l.deed c d).now = l.now := by cases d <;> rfl
  unfold OnStep stepTime
  rw [hsteps, hcurrent, hnow]
  exact hon

theorem Dated.deed (hcausal : c.causal = true) (hd : l.Dated)
    (hon : isCallSoon d = true → l.OnStep) : (l.deed c d).Dated := by
  cases d with
  | callSoon call =>
    refine hd.enter (enters_callSoon hcausal hd.distinct call) rfl (fun k hin => ?_)
      (fun k hin => .inl hin) fun _ => hon rfl
    exact (List.mem_append.mp hin).imp_right List.mem_singleton.mp
  | callAt time call =>
    refine hd.enter (enters_callAt hcausal hd.distinct time call) rfl (fun k hin => .inl hin)
      (fun k hin => ?_) fun hvia => absurd hvia (show "timer" ≠ "soon" by decide)
    refine (Agenda.mem_push.mp hin).symm.imp_right fun hk => ⟨hk, ?_⟩
    exact show "timer" ≠ "soon" by decide
  | cancel id =>
    refine hd.passive ⟨rfl, rfl, rfl, rfl, rfl,
      fun hd => Agenda.keeps_distinct _ (.cancel id) _ trivial hd rfl, ?_⟩
    exact .of_subset rfl (fun _ hin => hin) (fun _ hin => hin) (List.subset_cons_self _ _)
  | crashTasks tasks =>
    refine hd.passive ⟨rfl, rfl, rfl, rfl, rfl,
      fun hd => Agenda.keeps_distinct _ (.crashTasks tasks) _ trivial hd rfl, ?_⟩
    exact .of_subset rfl (fun _ hin => hin) (fun _ hin => hin) fun _ hin => hin
  | emit e =>
    refine hd.passive ⟨rfl, rfl, rfl, ?_, rfl, fun hd => hd, .refl _⟩
    simp [steps, SimLoop.deed, hhonest e rfl]
  | stop => exact hd.passive ⟨rfl, rfl, rfl, rfl, rfl, fun hd => hd, .refl _⟩
  | always label predicate => exact hd.passive ⟨rfl, rfl, rfl, rfl, rfl, fun hd => hd, .refl _⟩
  | eventually label predicate within =>
    exact hd.passive ⟨rfl, rfl, rfl, rfl, rfl, fun hd => hd, .refl _⟩
  | leadsTo label trigger response within =>
    exact hd.passive ⟨rfl, rfl, rfl, rfl, rfl, fun hd => hd, .refl _⟩

end Deeds

theorem Dated.deeds (hcausal : c.causal = true) {ds : List (Deed σ J)} (hd : l.Dated)
    (hhonest : ∀ d ∈ ds, ∀ e, d = .emit e → e.kind ≠ "step")
    (hon : ds.any isCallSoon = true → l.OnStep) :
    (ds.foldl (fun l d => l.deed c d) l).Dated := by
  induction ds generalizing l with
  | nil => exact hd
  | cons d rest ih =>
    have hfirst := hhonest d List.mem_cons_self
    rw [List.any_cons, Bool.or_eq_true] at hon
    refine ih (hd.deed hfirst hcausal fun hsoon => hon (.inl hsoon))
      (fun d hd => hhonest d (List.mem_cons_of_mem _ hd)) fun hsoon => ?_
    exact deed_onStep hfirst (hon (.inr hsoon))

theorem Dated.perform (hcausal : c.causal = true) {code : Code R σ J} (hd : l.Dated)
    (hhonest : Honest code) (hprompt : l.CodePrompt code) : (l.perform c code).1.Dated := by
  refine Dated.deeds hcausal (hd.passive ?_) (hhonest _ _ _ _) hprompt
  exact ⟨rfl, rfl, rfl, rfl, rfl, fun hd => hd, .refl _⟩

/-! ### Steps -/

/-- What a step logs: the time, and what was noted of the handle it takes. -/
theorem takeStep_event (hcausal : c.causal = true) (index count : Nat) (h : Handle J) :
    ∃ e, (l.takeStep c index count h).steps = l.steps ++ [e] ∧ e.t = l.now ∧
      ∀ number : Int, e.wokeBy = some (some number) → ∃ entry ∈ l.causes,
        l.equalHandles c h entry.1 = true ∧ ∃ place, entry.2.wokeBy = some place ∧
          number = place ∧ e.via = some entry.2.via := by
  refine ⟨_, by simp [steps, takeStep, emit]; rfl, rfl, fun number hnumber => ?_⟩
  unfold causeFields at hnumber ⊢
  rw [if_pos hcausal] at hnumber ⊢
  cases hfind : l.causes.find? fun entry => l.equalHandles c h entry.1 with
  | none =>
    rw [hfind] at hnumber
    cases hnumber
  | some entry =>
    rw [hfind] at hnumber
    have hequal := List.find?_some hfind
    refine ⟨entry, List.mem_of_find?_eq_some hfind, hequal, ?_⟩
    obtain ⟨key, wokeBy, via⟩ := entry
    cases wokeBy with
    | none => cases hnumber
    | some place =>
      have hplace : (place : Int) = number := by simpa [Event.wokeBy, Event.field] using hnumber
      exact ⟨place, rfl, hplace.symm, by simp [Event.via, Event.field]⟩

/-- A step that is taken keeps to the law. -/
theorem Dated.inStep (hd : l.Dated) {index : Nat} (ht : Takeable l index h) {e : Event}
    (htime : e.t = l.now) (hevent : ∀ number : Int, e.wokeBy = some (some number) →
      ∃ entry ∈ l.causes, l.equalHandles c h entry.1 = true ∧ ∃ place, entry.2.wokeBy = some place ∧
        number = place ∧ e.via = some entry.2.via) : InStep l.steps e := by
  intro number hnumber
  obtain ⟨entry, hentry, heq, place, hwoke, hplace, hvia⟩ := hevent number hnumber
  have hlt : place < l.steps.length := hd.named entry hentry place hwoke
  have hcause : l.steps[place]? = some l.steps[place] := List.getElem?_eq_getElem hlt
  refine ⟨l.steps[place], place, hplace, hcause, fun hsoon => ?_, fun _ => ?_⟩
  · -- what was called soon is told by its id
    rw [hvia] at hsoon
    have hvia : entry.2.via = "soon" := Option.some.inj hsoon
    have hid : h.id = entry.1.id := by
      unfold equalHandles at heq
      rw [if_neg (by simp [hd.untimed entry hentry hvia])] at heq
      exact beq_iff_eq.mp heq
    have hnow := hd.ready h (List.mem_of_getElem? ht.ready) ht.isCancelled entry hentry hid.symm
      hvia place hwoke
    unfold stepTime at hnow
    rw [hcause, Option.map_some, Option.some.injEq] at hnow
    rw [htime, hnow]
  · rw [htime]
    exact hd.past _ (List.getElem_mem hlt)

/-- A handle is taken and its step is logged; the step is numbered or not. -/
theorem Dated.take (hcausal : c.causal = true) (hd : l.Dated) {index : Nat} (count : Nat)
    (ht : Takeable l index h) (hcauses : l'.causes = (l.takeStep c index count h).causes)
    (hagenda : l'.agenda = l.agenda.take index)
    (hsteps : l'.steps = (l.takeStep c index count h).steps)
    (hseq : l'.stepSeq ≤ l.stepCount + 1) (hcurrent : ∀ number ∈ l'.currentStep, number ≤ l.stepCount) :
    l'.Dated := by
  obtain ⟨e, hevent, htime, hwoke⟩ := takeStep_event hcausal index count h
  rw [hevent] at hsteps
  have hcount : l'.stepCount = l.stepCount + 1 := by simp [stepCount, hsteps]
  have hnow : l'.now = l.now := by
    unfold now
    rw [hagenda]
    rfl
  have hmem {entry : Handle J × Cause} (he : entry ∈ l'.causes) : entry ∈ l.causes := by
    rw [hcauses, show (l.takeStep c index count h).causes = (l.causeFields c h).2 from rfl,
      causeFields_causes hcausal] at he
    exact List.eraseP_subset he
  exact {
    law := hsteps ▸ hd.law.append (hd.inStep ht htime hwoke)
    past := by
      intro e' hin
      rw [hsteps] at hin
      rw [hnow]
      rcases List.mem_append.mp hin with hin | hin
      · exact hd.past e' hin
      · rw [List.mem_singleton.mp hin, htime]
    numbered := hcount ▸ hseq
    current := fun number hnumber => by
      rw [hcount]
      exact Nat.lt_succ_of_le (hcurrent number hnumber)
    distinct := hagenda ▸ ht.distinct hd.distinct
    keys := fun entry he => by
      rw [hagenda]
      exact hd.keys entry (hmem he)
    named := fun entry he number hnumber => by
      rw [hcount]
      exact Nat.lt_succ_of_lt (hd.named entry (hmem he) number hnumber)
    untimed := fun entry he => hd.untimed entry (hmem he)
    ready := fun k hin hlive entry he hid hvia number hnumber => by
      rw [hagenda] at hin hlive
      have hold := hd.ready k (List.mem_of_mem_eraseIdx hin) hlive entry (hmem he) hid hvia
        number hnumber
      have hlt := hd.named entry (hmem he) number hnumber
      unfold stepTime at hold ⊢
      rw [hsteps, List.getElem?_append_left hlt, hnow]
      exact hold
    scheduled := fun k hin entry he => by
      rw [hagenda] at hin
      exact hd.scheduled k hin entry (hmem he) }

section Steps
variable (hcausal : c.causal = true) (hhonest : HonestCode c.code)
include hcausal hhonest

theorem Dated.runHandle (hd : l.Dated)
    (hprompt : CodePrompt {l with agenda := l.agenda.run} (c.code.call h.call.job)) :
    (l.runHandle c h).1.Dated := by
  refine Dated.perform hcausal (hd.passive ?_) (hhonest.call _) hprompt
  refine ⟨rfl, rfl, rfl, rfl, rfl, fun hd => Agenda.keeps_distinct _ .run _ trivial hd rfl, ?_⟩
  exact .of_subset rfl (fun _ hin => hin) (fun _ hin => hin) fun _ hin => hin

theorem Dated.collectDue (hd : l.Dated)
    (hprompt : c.gcInterval ≠ 0 ∧ (l.stepSeq : Int) % c.gcInterval = 0 →
      l.CodePrompt c.code.collect) : (l.collectDue c).Dated := by
  unfold SimLoop.collectDue
  split
  next hdue =>
    exact (hd.perform hcausal hhonest.collect (hprompt hdue)).passive
      ((quiet_log (show "gc_collect" ≠ "step" by decide)).idle rfl)
  next => exact hd

theorem Dated.execute (hd : l.Dated) {index count : Nat} (ht : Takeable l index h)
    (hprompt : StepPrompt c ⟨l, index, count, h⟩) : (l.execute c index count h).1.Dated := by
  let taken := ((l.takeStep c index count h).numberStep).countInstant
  have htaken : taken.Dated := by
    refine hd.take hcausal count ht rfl rfl rfl ?_ fun number hnumber => ?_
    · exact Nat.succ_le_succ hd.numbered
    · exact Option.some.inj hnumber ▸ hd.numbered
  unfold SimLoop.execute
  dsimp only
  split
  next =>
    refine htaken.passive ⟨rfl, rfl, rfl, rfl, rfl,
      fun hd => Agenda.keeps_distinct _ .lose _ trivial hd rfl, ?_⟩
    exact .of_subset rfl (fun _ hin => hin) (fun _ hin => hin) fun _ hin => hin
  next hlate =>
    obtain ⟨hcollect, hrun⟩ := hprompt hlate
    have hcollected := htaken.collectDue hcausal hhonest hcollect
    have hran := hcollected.runHandle hcausal hhonest hrun
    exact hran.passive ((quiet_finishStep _).idle (finishStep_agenda _))

theorem Dated.runOnce (hd : l.Dated) (hhand : l.agenda.hand = none)
    (hprompt : ∀ p ∈ l.nextStep c, StepPrompt c p) : (l.runOnce c).1.Dated := by
  cases hnext : l.nextStep c with
  | none => exact hd.passive ((runOnce_of_none hhand hnext).passive (runOnce_drift hnext))
  | some p =>
    obtain ⟨hrun, hquiet, htake⟩ := runOnce_of_some hhand hnext
    rw [hrun]
    exact (hd.passive (hquiet.passive (nextStep_drift hnext))).execute hcausal hhonest htake
      (hprompt p hnext)

/-- A step of a drain is not numbered. -/
theorem Dated.drained (hd : l.Dated) (hhand : l.agenda.hand = none)
    (hprompt : ∀ p ∈ l.nextDrained c, DrainedPrompt c p) : (l.drainReady c 1).1.Dated := by
  cases hnext : l.nextDrained c with
  | none => exact hd.passive ((drainReady_of_none hnext).passive (drainReady_drift hnext))
  | some p =>
    obtain ⟨hrest, hquiet, htake⟩ := drainReady_of_some hhand hnext
    have hpicked := hd.passive (hquiet.passive (nextDrained_drift hnext))
    have htaken : (p.loop.takeStep c p.index p.count p.handle).Dated := by
      refine hpicked.take hcausal p.count htake rfl rfl rfl ?_ fun number hnumber => ?_
      · exact Nat.le_succ_of_le hpicked.numbered
      · exact (hpicked.current number hnumber).le
    have hran := htaken.runHandle hcausal hhonest (hprompt p hnext)
    exact hran.passive (hrest.idle (drainReady_agenda hnext))

theorem Dated.drainReady (limit : Nat) (hd : l.Dated) (hhand : l.agenda.hand = none)
    (hprompt : DrainPrompt c limit l) : (l.drainReady c limit).1.Dated := by
  induction limit generalizing l with
  | zero => exact hd
  | succ limit ih =>
    obtain ⟨hfirst, hrest⟩ := hprompt
    have hdrained := hd.drained hcausal hhonest hhand hfirst
    have hidle : (l.drainReady c 1).1.agenda.hand = none :=
      (show Follows True True l.agenda _ ∧ _ from drainReady_follows 1 hhand).2
    rw [drainReady_succ]
    generalize l.drainReady c 1 = turn at hdrained hidle hrest ⊢
    obtain ⟨m, e⟩ := turn
    cases e with
    | none => exact hdrained
    | some e =>
      cases e with
      | drainLimit => exact ih hdrained hidle hrest
      | _ => exact hdrained

end Steps

/-! ### Runs -/

/-- Every call keeps what is noted datable. -/
theorem Dated.drive (hcausal : c.causal = true) (hhonest : HonestCode c.code) (hd : l.Dated)
    (hhand : l.agenda.hand = none) {e : Drive R σ J} (hdrive : Chronicle.HonestDrive e)
    (hdateable : l.Dateable c e) : (l.drive c e).1.Dated := by
  cases e with
  | once => exact hd.runOnce hcausal hhonest hhand hdateable
  | drain limit => exact hd.drainReady hcausal hhonest limit hhand hdateable
  | outside code => exact hd.perform hcausal hdrive hdateable
  | finalize =>
    refine hd.passive (Quiet.idle ?_ finalizeMonitors_agenda)
    unfold SimLoop.drive finalizeMonitors
    dsimp only
    split
    · exact .refl _
    · exact quiet_conclude _
  | leave => exact hd.passive ⟨rfl, rfl, rfl, rfl, rfl, fun hd => hd, .refl _⟩
  | unmonitor => exact hd.passive ⟨rfl, rfl, rfl, rfl, rfl, fun hd => hd, .refl _⟩
  | revive =>
    exact { hd with
      distinct := Agenda.keeps_distinct _ .reviveCrashed _ trivial hd.distinct rfl
      ready := fun h hin hlive => by
        rcases List.mem_append.mp hin with hin | hin
        · exact hd.ready h hin hlive
        · exact hdateable h hin hlive }

/-- **Wakeups obey the temporal law**, in any run in which `call_soon` is called only while the
clock is where the current step was logged, and what a crash parked is revived before the
clock moves on. -/
theorem temporal_law (c : LoopConfig R σ J κ) (hcausal : c.causal = true)
    (hhonest : HonestCode c.code) (epoch : ℚ) (user : σ) (tape : Tape R) (scheduler : κ)
    (es : List (Drive R σ J)) (hdrives : ∀ e ∈ es, Chronicle.HonestDrive e)
    (hdateable : Transition.Along (move c) (Dateable c) (start epoch user tape scheduler) es) :
    TemporalLaw ((start epoch user tape scheduler).after c es).steps := by
  let I (l : SimLoop R σ J κ) : Prop := l.Dated ∧ l.agenda.hand = none
  have hkeeps : Transition.Keeps (move c)
      (fun l e => Chronicle.HonestDrive e ∧ l.Dateable c e) I := by
    rintro l e l' ⟨hdrive, hdateable⟩ ⟨hd, hhand⟩ hmove
    refine Option.some.inj hmove ▸ ⟨hd.drive hcausal hhonest hhand hdrive hdateable, ?_⟩
    exact (show Follows True True l.agenda _ ∧ _ from
      drive_follows hhand e (fun _ _ => trivial) fun _ _ => trivial).2
  have hlast : I ((start epoch user tape scheduler).after c es) :=
    hkeeps.run ((Transition.along_of_forall (fun e he _ => hdrives e he) _).and hdateable)
      ⟨dated_start epoch user tape scheduler, rfl⟩ (run_after es)
  exact hlast.1.law

/-! ### Late wakeups -/

theorem not_temporalLaw {steps : List Event} (number place : Nat)
    (hwoken : (steps[number]?.map fun e => (e.wokeBy, e.via)) =
      some (some (some (place : Int)), some "soon"))
    (htimes : steps[number]?.map Event.t ≠ steps[place]?.map Event.t) : ¬TemporalLaw steps := by
  intro hlaw
  obtain ⟨e, he, hfields⟩ := Option.map_eq_some_iff.mp hwoken
  obtain ⟨hwoke, hvia⟩ := Prod.mk.inj hfields
  obtain ⟨cause, place', hplace, hcause, hsoon, _⟩ :=
    hlaw e (List.mem_of_getElem? he) place hwoke
  obtain rfl : place = place' := Int.ofNat_inj.mp hplace
  exact htimes (by rw [he, hcause, Option.map_some, Option.map_some, hsoon hvia])

/-- The first callback calls a task soon, crashes it and sets a timer. -/
def crashing : Nat → List (Deed Nat Nat)
  | 0 => [.callSoon ⟨1, some 7⟩, .crashTasks [7], .callAt 5 ⟨2, none⟩]
  | _ => []

/-- The first callback sets a deadline, and a timer after it. -/
def overdue : Nat → List (Deed Nat Nat)
  | 0 => [.eventually "done" (fun _ _ => false) 3, .callAt 5 ⟨2, none⟩]
  | _ => []

/-- A callback sets a timer, whose callback calls another soon. -/
def delayed : Nat → List (Deed Nat Nat)
  | 0 => [.callAt 1 ⟨1, none⟩]
  | 1 => [.callSoon ⟨2, none⟩]
  | _ => []

/-- A crash parks a handle, which is revived when the clock has moved on. A deadline moves the
clock and ends the run, and teardown calls soon. After a drain, what a step calls soon names
an earlier step. -/
theorem temporal_law_broken :
    ¬TemporalLaw ((start 0 0 (.generate 0) ()).after (causalLoop crashing)
      [does [.callSoon ⟨0, none⟩], .once, .once, .revive, .drain 3]).steps ∧
    ¬TemporalLaw ((start 0 0 (.generate 0) ()).after (causalLoop overdue)
      [does [.callSoon ⟨0, none⟩], .once, .once, does [.callSoon ⟨1, none⟩], .once]).steps ∧
    ¬TemporalLaw ((start 0 0 (.generate 0) ()).after (causalLoop delayed)
      [does [.callSoon ⟨2, none⟩], .drain 3, does [.callSoon ⟨0, none⟩], .once, .once, .once]).steps :=
  ⟨not_temporalLaw 2 0 (by decide +kernel) (by decide +kernel),
    not_temporalLaw 1 0 (by decide +kernel) (by decide +kernel),
    not_temporalLaw 3 1 (by decide +kernel) (by decide +kernel)⟩

theorem temporal_law_revived :
    TemporalLaw ((start 0 0 (.generate 0) ()).after (causalLoop crashing)
      [does [.callSoon ⟨0, none⟩], .once, .revive, .once, .once, .drain 3]).steps := by
  refine temporal_law (causalLoop crashing) rfl (Chronicle.honest_scripted ?_) 0 0 (.generate 0) ()
    _ ?_ ?_
  · intro job d hd e
    cases job <;> simp [crashing] at hd
    rcases hd with rfl | rfl | rfl <;> simp
  · intro e he
    simp only [List.mem_cons, List.not_mem_nil, or_false] at he
    rcases he with rfl | rfl | rfl | rfl | rfl | rfl <;> try exact trivial
    exact honest_does (by simp)
  · decide +kernel

end SimLoop

end Simloom
