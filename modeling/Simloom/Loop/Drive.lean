import Simloom.Loop.SimLoop
import Simloom.Theory.Stutter
import Mathlib.Data.List.TakeWhile

/-! Runs of the loop.

A run is any sequence of calls: steps, drains, code that runs outside of steps, and what
teardown does to the loop. `run_forever` is such a sequence (`runForever_moves`). What a
step does before it has a handle to run is one of four things (`settles`). -/
namespace Simloom.SimLoop
open Theory
variable {R : RandomSource} {σ J κ : Type}

/-- What is done with a loop. -/
inductive Drive (R : RandomSource) (σ J : Type) where
  | once
  | drain (limit : Nat)
  | outside (code : Code R σ J)
  | finalize
  | leave
  | unmonitor
  | revive

variable (c : LoopConfig R σ J κ) (l : SimLoop R σ J κ)

def drive : Drive R σ J → Turn R σ J κ
  | .once => l.runOnce c
  | .drain limit => l.drainReady c limit
  | .outside code => ((l.perform c code).1, (l.perform c code).2.map .raised)
  | .finalize => l.finalizeMonitors
  | .leave => ({l with stopping := false}, none)
  | .unmonitor => ({l with monitoringEnabled := false}, none)
  | .revive => (l.reviveCrashed, none)

/-- `drive` as a transition system; a call that raises leaves a state too. -/
def move (e : Drive R σ J) : Option (SimLoop R σ J κ) := some (l.drive c e).1

/-- `run_forever` makes steps, and leaves. -/
theorem runForever_moves {fuel : Nat} {l : SimLoop R σ J κ} {turn : Turn R σ J κ}
    (h : runForever c fuel l = some turn) :
    ∃ steps, Transition.run (move c) l (List.replicate steps .once ++ [.leave]) = some turn.1 := by
  induction fuel generalizing l with
  | zero => cases h
  | succ fuel ih =>
    unfold runForever at h
    split at h
    · exact ⟨0, by rw [← Option.some.inj h]; rfl⟩
    · split at h
      next l' e hturn =>
        refine ⟨1, ?_⟩
        rw [← Option.some.inj h]
        simp only [List.replicate, List.cons_append, Transition.run, move, drive, hturn]
        rfl
      next l' hturn =>
        obtain ⟨steps, hrun⟩ := ih h
        refine ⟨steps + 1, Transition.run_cons.mpr ⟨l', ?_, hrun⟩⟩
        simp only [move, drive, hturn]

/-- One round of `run_forever`: it ends, or goes on. -/
def round : SimLoop R σ J κ ⊕ Turn R σ J κ :=
  if l.stopping then .inr ({l with stopping := false}, none)
  else match l.runOnce c with
    | (l, some e) => .inr ({l with stopping := false}, some e)
    | (l, none) => .inl l

theorem runForever_succ (fuel : Nat) : runForever c (fuel + 1) l =
    match l.round c with
    | .inr turn => some turn
    | .inl l' => runForever c fuel l' := by
  rw [runForever, round]
  split
  · rfl
  · obtain ⟨m, e⟩ := l.runOnce c
    cases e <;> rfl

/-- A round that goes on is a step that raises nothing, of a loop that was not told to stop. -/
theorem round_goes {l m : SimLoop R σ J κ} :
    l.round c = .inl m ↔ l.stopping = false ∧ l.runOnce c = (m, none) := by
  unfold round
  cases hstop : l.stopping with
  | true => simp
  | false =>
    obtain ⟨n, e⟩ := l.runOnce c
    cases e <;> simp

/-- The last round leaves the loop, as it was told to or by what the step raised. -/
theorem round_stops {l : SimLoop R σ J κ} {turn : Turn R σ J κ} :
    l.round c = .inr turn ↔
      l.stopping = true ∧ turn = ({l with stopping := false}, none) ∨
      ∃ m e, l.stopping = false ∧ l.runOnce c = (m, some e) ∧
        turn = ({m with stopping := false}, some e) := by
  unfold round
  cases hstop : l.stopping with
  | true => simp [eq_comm]
  | false =>
    obtain ⟨n, e⟩ := l.runOnce c
    cases e <;> simp [eq_comm]

/-- `run_forever` comes to what its rounds come to. -/
theorem runForever_iff {l : SimLoop R σ J κ} {turn : Turn R σ J κ} :
    (∃ fuel, runForever c fuel l = some turn) ↔ Stutter.Comes (round c) l turn := by
  constructor
  · rintro ⟨fuel, h⟩
    induction fuel generalizing l with
    | zero => cases h
    | succ fuel ih =>
      rw [runForever_succ] at h
      split at h
      next turn' hround => exact ⟨l, .here, Option.some.inj h ▸ hround⟩
      next l' hround =>
        obtain ⟨m, hvisits, hstop⟩ := ih h
        exact ⟨m, (Stutter.Visits.here.step hround).trans hvisits, hstop⟩
  · rintro ⟨m, hvisits, hstop⟩
    suffices hfrom : (∃ fuel, runForever c fuel m = some turn) →
        ∃ fuel, runForever c fuel l = some turn from
      hfrom ⟨1, by rw [runForever_succ, hstop]⟩
    clear hstop
    induction hvisits with
    | here => exact id
    | @step u v _ hround ih =>
      rintro ⟨fuel, h⟩
      exact ih ⟨fuel + 1, by rw [runForever_succ, hround]; exact h⟩

/-- The states that `run_forever` goes through between its steps. -/
def Ongoing (m : SimLoop R σ J κ) : Prop := Stutter.Visits (round c) l m

/-- What `run_until_complete` raises if its task is not done. -/
def stoppedEarly : PyException := ⟨runtimeError, "event loop stopped before the future completed"⟩

/-- `_execute` up to its teardown: `run_until_complete`, then `finalize_monitors`. `result` is
what the former raises once the loop has stopped: the main task's exception, or that it is
not done. -/
def runMain (result : σ → Option PyException) (fuel : Nat) : Option (Turn R σ J κ) :=
  match runForever c fuel l with
  | some (l, none) =>
    match result l.user with
    | some e => some (l, some (.raised e))
    | none => some l.finalizeMonitors
  | turn => turn

/-! ### Up to the timers -/

/-- What a step finds: handles that are ready, nothing to wait for, a deadline that comes
before the next timer or has come, or that timer. -/
inductive Settles : Turn R σ J κ ⊕ SimLoop R σ J κ → Prop where
  | ready (hready : l.tidy.agenda.ready ≠ []) : Settles (.inr l.tidy)
  | deadlock (hready : l.tidy.agenda.ready = []) (hscheduled : l.tidy.agenda.scheduled = []) :
    Settles (.inl (l.tidy.reportDeadlock c))
  | due {top : Handle J} {rest : List (Handle J)} {deadline : ℚ}
    (hready : l.tidy.agenda.ready = []) (hscheduled : l.tidy.agenda.scheduled = top :: rest)
    (hdeadline : l.tidy.nextDeadline = some deadline)
    (hdue : deadline ≤ l.now ∨ deadline < top.time) :
    Settles (.inl (l.tidy.arrive (max l.now deadline)).checkDue)
  | jump {top : Handle J} {rest : List (Handle J)}
    (hready : l.tidy.agenda.ready = []) (hscheduled : l.tidy.agenda.scheduled = top :: rest)
    (hdeadline : ∀ deadline ∈ l.tidy.nextDeadline, l.now < deadline ∧ top.time ≤ deadline) :
    Settles (.inr (l.tidy.jump top.time))

/-- Tidying passes no time. -/
@[simp] theorem tidy_now : l.tidy.now = l.now := Agenda.compact_now _

theorem tidy_ready_nil {l : SimLoop R σ J κ} :
    l.tidy.agenda.ready = [] ↔ ∀ h ∈ l.agenda.ready, l.agenda.isDead h = true := by
  unfold tidy
  rw [Agenda.compact_ready, List.filter_eq_nil_iff]
  simp only [Bool.not_eq_true', Bool.not_eq_false]
  rfl

theorem tidy_scheduled_nil {l : SimLoop R σ J κ} :
    l.tidy.agenda.scheduled = [] ↔ ∀ h ∈ l.agenda.scheduled, l.agenda.isCancelled h = true := by
  unfold tidy
  rw [Agenda.compact_scheduled]
  exact List.dropWhile_eq_nil_iff

theorem settles : l.Settles c (l.settle c) := by
  unfold settle
  split
  next hempty =>
    have hready : l.tidy.agenda.ready = [] := List.isEmpty_iff.mp hempty
    unfold await
    split
    next hscheduled => exact .deadlock hready hscheduled
    next top rest hscheduled =>
      split
      next hnone => exact .jump hready hscheduled fun d hd => nomatch hnone.symm.trans hd
      next deadline hdeadline =>
        split
        next hcome =>
          have h := Settles.due (c := c) hready hscheduled hdeadline (.inl (tidy_now l ▸ hcome))
          rwa [max_eq_left (tidy_now l ▸ hcome), ← tidy_now l] at h
        next hlate =>
          have hlt : l.now < deadline := not_le.mp (tidy_now l ▸ hlate)
          split
          next hbefore =>
            have h := Settles.due (c := c) hready hscheduled hdeadline (.inr hbefore)
            rwa [max_eq_right hlt.le] at h
          next hafter =>
            refine .jump hready hscheduled fun d hd => ?_
            obtain rfl : deadline = d := Option.some.inj (hdeadline.symm.trans hd)
            exact ⟨hlt, not_lt.mp hafter⟩
  next hready => exact .ready fun h => hready (h ▸ rfl)

/-! ### The next step -/

/-- The loop with the timers woken that are due at its next step; `none` where that step
ends before it. -/
def poised : Option (SimLoop R σ J κ) :=
  match l.settle c with
  | .inl _ => none
  | .inr l => some l.wake

/-- The next step has a handle to run, and is one too many at its instant. -/
def isSpent : Bool :=
  (l.poised c).any fun l =>
    match l.agenda.ready with
    | [] => false
    | first :: rest =>
      (c.scheduler.pick first rest l.scheduler l.tape).1.isOk &&
        decide (c.maxStepsPerInstant < l.countInstant.instantSteps)

/-- The handle that is picked, and the loop at the garbage collection before it runs; `none`
where none is picked or nothing is collected. -/
def collectingFor : Option (Handle J × SimLoop R σ J κ) :=
  match l.agenda.ready with
  | [] => none
  | first :: rest =>
    match c.scheduler.pick first rest l.scheduler l.tape with
    | (.error _, _, _) => none
    | (.ok index, scheduler, tape) =>
      let h := (first :: rest).get index
      let taken := (({l with scheduler := scheduler, tape := tape}.takeStep c index
        (rest.length + 1) h).numberStep).countInstant
      if c.maxStepsPerInstant < taken.instantSteps then none
      else if c.gcInterval ≠ 0 ∧ (taken.stepSeq : Int) % c.gcInterval = 0 then some (h, taken)
      else none

/-- The garbage collection of the next step, if it makes one, does not crash the task of the
handle that the step has picked. -/
def Calm : Prop := ∀ h taken, (l.poised c).bind (collectingFor c) = some (h, taken) → ∀ tasks,
  .crashTasks tasks ∈ (c.code.collect taken.user taken.now taken.agenda.made taken.tape).deeds →
    ∀ task ∈ tasks, h.call.self ≠ some task

theorem calm_of_never (h : c.gcInterval = 0) : l.Calm c := by
  intro k taken hcollecting
  obtain ⟨l', -, hfor⟩ := Option.bind_eq_some_iff.mp hcollecting
  simp only [collectingFor, h, ne_eq, not_true_eq_false, false_and, if_false, ite_self] at hfor
  split at hfor
  · cases hfor
  · split at hfor <;> cases hfor

/-! ### A small program -/

/-- Callback `n` makes `n` the program's state and does what `script` lists for it. -/
def scripted (script : Nat → List (Deed Nat Nat)) (finalizers : List (Deed Nat Nat)) :
    UserCode zeroSource Nat Nat where
  call := fun n _ _ _ t => ⟨n, t, script n, none⟩
  collect := fun s _ _ t => ⟨s, t, finalizers, none⟩
  describe := fun _ _ => "callback"
  waiting := fun _ _ => []
  same := fun f g => f.job == g.job && f.self == g.self

def scriptedLoop (script : Nat → List (Deed Nat Nat)) (finalizers : List (Deed Nat Nat))
    (gcInterval maxStepsPerInstant : Int) : LoopConfig zeroSource Nat Nat Unit :=
  ⟨scripted script finalizers, randomWalk, gcInterval, maxStepsPerInstant, false⟩

/-- Deeds done outside of steps. -/
def does (deeds : List (Deed Nat Nat)) : Drive zeroSource Nat Nat :=
  .outside fun s _ _ t => ⟨s, t, deeds, none⟩

end Simloom.SimLoop
