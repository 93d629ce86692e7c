import Simloom.Loop.Runs

/-! The chronicle of a run: which handle each step ran, and when each handle was made.

It is kept beside the loop and reads nothing of its causes. `Traceable` says of what is done
with a loop that the loop can keep track of its causes: no timer is made that equals one
still to be run, and nothing is run that was made since a drain ran its first step. -/
namespace Simloom
open Theory
variable {R : RandomSource} {σ J κ : Type}

namespace SimLoop

/-! ### Steps -/

/-- The steps in the log. -/
def steps (l : SimLoop R σ J κ) : List Event := l.log.filter fun e => e.kind == "step"

def stepCount (l : SimLoop R σ J κ) : Nat := l.steps.length

/-- Handles that may still be run. -/
def pending (l : SimLoop R σ J κ) : List (Handle J) :=
  l.agenda.ready ++ l.agenda.scheduled ++ l.agenda.parked

/-- What a step takes, and the loop it takes it from. -/
structure Pick (R : RandomSource) (σ J κ : Type) where
  loop : SimLoop R σ J κ
  index : Nat
  count : Nat
  handle : Handle J

variable (c : LoopConfig R σ J κ)

/-- The scheduler's pick; `none` where nothing is ready or it is refused a draw. -/
def picks (l : SimLoop R σ J κ) : Option (Pick R σ J κ) :=
  match l.agenda.ready with
  | [] => none
  | first :: rest =>
    match c.scheduler.pick first rest l.scheduler l.tape with
    | (.error _, _, _) => none
    | (.ok index, scheduler, tape) =>
      some ⟨{l with scheduler := scheduler, tape := tape}, index, rest.length + 1,
        (first :: rest).get index⟩

theorem picks_some {c : LoopConfig R σ J κ} {l : SimLoop R σ J κ} {p : Pick R σ J κ}
    (hp : l.picks c = some p) : ∃ first rest index scheduler tape,
      l.agenda.ready = first :: rest ∧
      c.scheduler.pick first rest l.scheduler l.tape = (.ok index, scheduler, tape) ∧
      p = ⟨{l with scheduler := scheduler, tape := tape}, index, rest.length + 1,
        (first :: rest).get index⟩ := by
  cases hready : l.agenda.ready with
  | nil => simp [picks, hready] at hp
  | cons first rest =>
    rcases hpick : c.scheduler.pick first rest l.scheduler l.tape with ⟨_ | index, scheduler, tape⟩
    · simp [picks, hready, hpick] at hp
    · simp only [picks, hready, hpick, Option.some.injEq] at hp
      exact ⟨first, rest, index, scheduler, tape, rfl, hpick, hp.symm⟩

/-- What the next call of `_run_once` takes. -/
def nextStep (l : SimLoop R σ J κ) : Option (Pick R σ J κ) := (l.poised c).bind (picks c)

/-- What the next step of a drain takes. -/
def nextDrained (l : SimLoop R σ J κ) : Option (Pick R σ J κ) :=
  picks c {l with agenda := l.agenda.compact}

/-! ### What keeps handles apart -/

/-- Once there was a step, no pending handle equals the new one. -/
def NoTwin (l : SimLoop R σ J κ) (h : Handle J) : Prop :=
  l.stepCount = 0 ∨ ∀ k ∈ l.pending, l.equalHandles c h k = false

instance (l : SimLoop R σ J κ) (h : Handle J) : Decidable (l.NoTwin c h) :=
  inferInstanceAs (Decidable (_ ∨ _))

/-- The timers that a deed makes. -/
def DeedApart (l : SimLoop R σ J κ) : Deed σ J → Prop
  | .callAt time call => l.NoTwin c (l.agenda.next call (some time))
  | _ => True

def DeedsApart : SimLoop R σ J κ → List (Deed σ J) → Prop
  | _, [] => True
  | l, d :: rest => l.DeedApart c d ∧ DeedsApart (l.deed c d) rest

instance (l : SimLoop R σ J κ) : (d : Deed σ J) → Decidable (l.DeedApart c d)
  | .callAt time call => inferInstanceAs (Decidable (l.NoTwin c (l.agenda.next call (some time))))
  | .callSoon _ | .cancel _ | .crashTasks _ | .stop | .emit _ | .always _ _ | .eventually _ _ _
  | .leadsTo _ _ _ _ => inferInstanceAs (Decidable True)

instance decidableDeedsApart : (l : SimLoop R σ J κ) → (ds : List (Deed σ J)) →
    Decidable (DeedsApart c l ds)
  | _, [] => inferInstanceAs (Decidable True)
  | l, d :: rest =>
    have := decidableDeedsApart (l.deed c d) rest
    inferInstanceAs (Decidable (l.DeedApart c d ∧ DeedsApart c (l.deed c d) rest))

/-- The timers that running code makes. -/
def CodeApart (l : SimLoop R σ J κ) (code : Code R σ J) : Prop :=
  let effect := code l.user l.now l.agenda.made l.tape
  DeedsApart c {l with user := effect.state, tape := effect.tape} effect.deeds

instance (l : SimLoop R σ J κ) (code : Code R σ J) : Decidable (l.CodeApart c code) :=
  decidableDeedsApart c _ _

/-- The timers that a step makes. -/
def StepApart (p : Pick R σ J κ) : Prop :=
  let l := ((p.loop.takeStep c p.index p.count p.handle).numberStep).countInstant
  ¬c.maxStepsPerInstant < l.instantSteps →
    (c.gcInterval ≠ 0 ∧ (l.stepSeq : Int) % c.gcInterval = 0 → l.CodeApart c c.code.collect) ∧
    CodeApart c {l.collectDue c with agenda := (l.collectDue c).agenda.run}
      (c.code.call p.handle.call.job)

instance (p : Pick R σ J κ) : Decidable (StepApart c p) :=
  inferInstanceAs (Decidable (¬_ < _ → (_ → CodeApart c _ _) ∧ CodeApart c _ _))

/-- The timers that a step of a drain makes. -/
def DrainApart (p : Pick R σ J κ) : Prop :=
  let l := p.loop.takeStep c p.index p.count p.handle
  CodeApart c {l with agenda := l.agenda.run} (c.code.call p.handle.call.job)

instance (p : Pick R σ J κ) : Decidable (DrainApart c p) :=
  inferInstanceAs (Decidable (CodeApart c _ _))

end SimLoop

/-- `births` counts the steps in the log when each handle was made, and `stepped` lists the
handles of the steps. `barrier` is how many handles there were when a drain ran its first
step. -/
structure Chronicle (R : RandomSource) (σ J κ : Type) where
  loop : SimLoop R σ J κ
  births : List Nat
  stepped : List (Handle J)
  barrier : Option Nat

namespace Chronicle
variable (c : LoopConfig R σ J κ) (w : Chronicle R σ J κ)

def of (l : SimLoop R σ J κ) : Chronicle R σ J κ := ⟨l, [], [], none⟩

/-- What handles were made until now is as old as the last step. -/
def note (taken : Option (Handle J)) (l : SimLoop R σ J κ) : Chronicle R σ J κ :=
  {w with
    loop := l
    births := w.births ++ List.replicate (l.agenda.made - w.births.length) l.stepCount
    stepped := w.stepped ++ taken.toList}

/-- A step of a drain. -/
def drained : Chronicle R σ J κ :=
  match w.loop.nextDrained c with
  | none => w.note none (w.loop.drainReady c 1).1
  | some p =>
    {w.note (some p.handle) (w.loop.drainReady c 1).1 with
      barrier := some (w.barrier.getD w.loop.agenda.made)}

/-- The steps of a drain. -/
def drain : Nat → Chronicle R σ J κ → Chronicle R σ J κ
  | 0, w => w
  | limit + 1, w =>
    match (w.loop.drainReady c 1).2 with
    | some .drainLimit => drain limit (w.drained c)
    | _ => w.drained c

def play : SimLoop.Drive R σ J → Chronicle R σ J κ
  | .once => w.note ((w.loop.nextStep c).map SimLoop.Pick.handle) (w.loop.runOnce c).1
  | .drain limit => w.drain c limit
  | e => w.note none (w.loop.drive c e).1

/-- The chronicle as a transition system. -/
def move (e : SimLoop.Drive R σ J) : Option (Chronicle R σ J κ) := some (w.play c e)

/-! ### What can be traced -/

/-- The handle was made before a drain ran a step. -/
def InTime (h : Handle J) : Prop := ∀ barrier ∈ w.barrier, h.id < barrier

instance (h : Handle J) : Decidable (w.InTime h) :=
  inferInstanceAs (Decidable (∀ barrier ∈ w.barrier, h.id < barrier))

def DrainedTraceable : Prop :=
  ∀ p ∈ w.loop.nextDrained c, w.InTime p.handle ∧ SimLoop.DrainApart c p

instance : Decidable (w.DrainedTraceable c) :=
  inferInstanceAs (Decidable (∀ p ∈ w.loop.nextDrained c, w.InTime p.handle ∧ SimLoop.DrainApart c p))

def DrainTraceable : Nat → Chronicle R σ J κ → Prop
  | 0, _ => True
  | limit + 1, w => w.DrainedTraceable c ∧
    match (w.loop.drainReady c 1).2 with
    | some .drainLimit => DrainTraceable limit (w.drained c)
    | _ => True

instance decidableDrainTraceable : (limit : Nat) → (w : Chronicle R σ J κ) →
    Decidable (DrainTraceable c limit w)
  | 0, _ => inferInstanceAs (Decidable True)
  | limit + 1, w =>
    have : Decidable (match (w.loop.drainReady c 1).2 with
      | some .drainLimit => DrainTraceable c limit (w.drained c)
      | _ => True) :=
      match (w.loop.drainReady c 1).2 with
      | some .drainLimit => decidableDrainTraceable limit (w.drained c)
      | none | some (.deadlock _) | some (.livelock _ _) | some (.violation _) | some (.refused _)
      | some (.raised _) => isTrue trivial
    inferInstanceAs (Decidable (w.DrainedTraceable c ∧ _))

def Traceable : SimLoop.Drive R σ J → Prop
  | .once => ∀ p ∈ w.loop.nextStep c, w.InTime p.handle ∧ SimLoop.StepApart c p
  | .drain limit => DrainTraceable c limit w
  | .outside code => w.loop.CodeApart c code
  | _ => True

instance : (e : SimLoop.Drive R σ J) → Decidable (w.Traceable c e)
  | .once => inferInstanceAs (Decidable (∀ p ∈ w.loop.nextStep c,
      w.InTime p.handle ∧ SimLoop.StepApart c p))
  | .drain limit => decidableDrainTraceable c limit w
  | .outside code => inferInstanceAs (Decidable (w.loop.CodeApart c code))
  | .finalize | .leave | .unmonitor | .revive => inferInstanceAs (Decidable True)

end Chronicle

/-! ### True causes -/

/-- How a handle came to be scheduled. -/
def Handle.via (h : Handle J) : String := if h.timer.isSome then "timer" else "soon"

/-- A field of a logged event. -/
def Event.field (e : Event) (name : String) : Option Json :=
  (e.fields.find? fun field => field.1 == name).map Prod.snd

namespace Chronicle

/-- The event names the step that was the last when its handle was made, an earlier one; or
none, where there was none. -/
def TrueCause (births : List Nat) (number : Nat) (h : Handle J) (e : Event) : Prop :=
  ∃ birth, births[h.id]? = some birth ∧ birth ≤ number ∧
    match birth with
    | 0 => e.field "woke_by" = some .null
    | cause + 1 => e.field "woke_by" = some (.int cause) ∧ e.field "via" = some (.str h.via)

/-- Every step's event names its true cause. -/
def CausesTrue (w : Chronicle R σ J κ) : Prop :=
  w.stepped.length = w.loop.stepCount ∧
    ∀ number h e, w.stepped[number]? = some h → w.loop.steps[number]? = some e →
      TrueCause w.births number h e

end Chronicle

end Simloom
