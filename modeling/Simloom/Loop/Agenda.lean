import Simloom.Theory.Transition
import Mathlib.Algebra.Order.Ring.Rat

/-! What the loop has to run: the queues of `SimLoop`, its clock, and who has crashed.

A handle is made ready (`call_soon`) or scheduled (`call_at`), is taken by a step and
run. On the way it may be cancelled, and is then dropped where the loop meets it; or its
task may crash, and then the loop parks it until the crashed tasks are revived. The
functions are those of the source. `step` makes a transition system of them: each under
the condition in which the loop calls it, so that what every operation keeps, the loop
keeps, whatever the callbacks do. -/
namespace Simloom
open Theory

abbrev TaskId := Nat

abbrev HandleId := Nat

/-- A callable: what it does, and the task it is bound to (its `__self__`), if any. -/
structure Callable (J : Type) where
  job : J
  self : Option TaskId

/-- `timer` is the time of a `TimerHandle`. `made` is not the source's: the time at which
the handle was made. -/
structure Handle (J : Type) where
  id : HandleId
  call : Callable J
  timer : Option ℚ
  made : ℚ

variable {J : Type}

def Handle.time (h : Handle J) : ℚ := h.timer.getD h.made

/-- When the handle should run: at its time, or at once where that has passed. -/
def Handle.due (h : Handle J) : ℚ := max h.time h.made

/-- An executed handle: when it ran, and which tasks were crashed then. -/
structure Ran (J : Type) where
  handle : Handle J
  time : ℚ
  crashed : List TaskId

/-- The heap is a list in the order in which it is popped: by time, then by registration.
`crashed` is `_crashed_tasks` and `_crashed_ids`. `hand` is what a step has taken and not
yet run, its local variable. The last three fields are not the source's: what ran; the
handles that were ever parked; and, since their task's crash, the handles of crashed tasks
that were ready then, were made ready, or fell due. -/
structure Agenda (J : Type) where
  now : ℚ
  ready : List (Handle J)
  scheduled : List (Handle J)
  parked : List (Handle J)
  cancelled : List HandleId
  crashed : List TaskId
  made : Nat
  hand : Option (Handle J)
  ran : List (Ran J)
  shelved : List HandleId
  withheld : List HandleId

namespace Agenda

def start (epoch : ℚ) : Agenda J := ⟨epoch, [], [], [], [], [], 0, none, [], [], []⟩

/-! ### Dead handles -/

def isCancelled (a : Agenda J) (h : Handle J) : Bool := h.id ∈ a.cancelled

def isCrashedOwned (a : Agenda J) (h : Handle J) : Bool := h.call.self.any (· ∈ a.crashed)

/-- Cancelled, or of a task on a crashed host. -/
def isDead (a : Agenda J) (h : Handle J) : Bool := a.isCancelled h || a.isCrashedOwned h

/-- A handle to park. -/
def isOrphan (a : Agenda J) (h : Handle J) : Bool := !a.isCancelled h && a.isCrashedOwned h

theorem isCancelled_iff {a : Agenda J} {h : Handle J} : a.isCancelled h = true ↔ h.id ∈ a.cancelled :=
  decide_eq_true_iff

theorem isCrashedOwned_iff {a : Agenda J} {h : Handle J} :
    a.isCrashedOwned h = true ↔ ∃ task, h.call.self = some task ∧ task ∈ a.crashed := by
  simp [isCrashedOwned, Option.any_eq_true]

/-- Park handles. -/
def park (a : Agenda J) (hs : List (Handle J)) : Agenda J :=
  {a with parked := a.parked ++ hs, shelved := a.shelved ++ hs.map Handle.id}

/-- Note which of the handles belong to crashed tasks. -/
def withhold (a : Agenda J) (hs : List (Handle J)) : Agenda J :=
  {a with withheld := a.withheld ++ (hs.filter a.isCrashedOwned).map Handle.id}

/-! ### What callbacks do -/

/-- Enter a task in the list of crashed ones, once. -/
def enter (crashed : List TaskId) (task : TaskId) : List TaskId :=
  if task ∈ crashed then crashed else crashed ++ [task]

/-- The handle that is made next. -/
def next (a : Agenda J) (call : Callable J) (timer : Option ℚ) : Handle J :=
  ⟨a.made, call, timer, a.now⟩

def callSoon (a : Agenda J) (call : Callable J) : Agenda J :=
  {a with made := a.made + 1, ready := a.ready ++ [a.next call none]}.withhold [a.next call none]

/-- `heappush`. -/
def push (h : Handle J) : List (Handle J) → List (Handle J)
  | [] => [h]
  | top :: rest => if top.time ≤ h.time then top :: push h rest else h :: top :: rest

def callAt (a : Agenda J) (time : ℚ) (call : Callable J) : Agenda J :=
  {a with made := a.made + 1, scheduled := push (a.next call (some time)) a.scheduled}

/-- `Handle.cancel`. -/
def cancel (a : Agenda J) (id : HandleId) : Agenda J := {a with cancelled := id :: a.cancelled}

/-- `_crash_tasks`, on tasks that are not done. -/
def crashTasks (a : Agenda J) (tasks : List TaskId) : Agenda J :=
  {a with crashed := tasks.foldl enter a.crashed}.withhold a.ready

/-! ### What the loop does -/

/-- Cancelled timers leave the top of the heap. -/
def dropTops (a : Agenda J) : Agenda J :=
  {a with scheduled := a.scheduled.dropWhile a.isCancelled}

def compactReady (a : Agenda J) : Agenda J :=
  {a with ready := a.ready.filter fun h => !a.isDead h}.park (a.ready.filter a.isOrphan)

/-- Compaction, where there is something to compact. -/
def compact (a : Agenda J) : Agenda J := if a.ready.any a.isDead then a.compactReady else a

@[simp] theorem compact_scheduled (a : Agenda J) : a.compact.scheduled = a.scheduled := by
  unfold compact
  split <;> rfl

/-- Compaction keeps what is not dead. -/
theorem compact_ready (a : Agenda J) : a.compact.ready = a.ready.filter fun h => !a.isDead h := by
  unfold compact
  split
  next => rfl
  next hnone =>
    refine (List.filter_eq_self.mpr fun h hin => ?_).symm
    rw [Bool.not_eq_true']
    exact Bool.eq_false_iff.mpr fun hdead => hnone (List.any_eq_true.mpr ⟨h, hin, hdead⟩)

@[simp] theorem compact_now (a : Agenda J) : a.compact.now = a.now := by
  unfold compact
  split <;> rfl

/-- The timers that have fallen due. -/
def dueTimers (a : Agenda J) : List (Handle J) := a.scheduled.takeWhile fun h => h.time ≤ a.now

/-- Due timers become ready, or are parked. -/
def wake (a : Agenda J) : Agenda J :=
  ({a with
      scheduled := a.scheduled.dropWhile fun h => h.time ≤ a.now
      ready := a.ready ++ a.dueTimers.filter fun h => !a.isDead h}.park
    (a.dueTimers.filter a.isOrphan)).withhold (a.dueTimers.filter fun h => !a.isCancelled h)

/-- `_revive_crashed`. -/
def reviveCrashed (a : Agenda J) : Agenda J :=
  {a with crashed := [], ready := a.ready ++ a.parked, parked := [], withheld := []}

/-- Take a ready handle. -/
def take (a : Agenda J) (index : Nat) : Agenda J :=
  {a with hand := a.ready[index]?, ready := a.ready.eraseIdx index}

/-- Run the handle at hand. -/
def run (a : Agenda J) : Agenda J :=
  {a with hand := none, ran := a.ran ++ a.hand.toList.map fun h => ⟨h, a.now, a.crashed⟩}

/-- The step ends without having run what it took. -/
def lose (a : Agenda J) : Agenda J := {a with hand := none}

/-- A crash that spares what a step has at hand. -/
def Spares (a : Agenda J) (tasks : List TaskId) : Prop :=
  ∀ h ∈ a.hand, ∀ task ∈ tasks, h.call.self ≠ some task

/-! ### The transition system -/

inductive Op (J : Type) where
  | callSoon (call : Callable J)
  | callAt (time : ℚ) (call : Callable J)
  | cancel (id : HandleId)
  | crashTasks (tasks : List TaskId)
  | dropTops
  | compactReady
  | advance (time : ℚ)
  | wake
  | take (index : Nat)
  | run
  | lose
  | reviveCrashed

/-- Where the loop moves its clock to `time`: nothing is ready, and no timer is passed. -/
def Awaits (a : Agenda J) (time : ℚ) : Prop :=
  a.ready = [] ∧ a.hand = none ∧ a.now ≤ time ∧ ∀ top ∈ a.scheduled.head?, time ≤ top.time

instance (a : Agenda J) (time : ℚ) : Decidable (a.Awaits time) :=
  inferInstanceAs (Decidable (a.ready = [] ∧ a.hand = none ∧ a.now ≤ time ∧
    ∀ top ∈ a.scheduled.head?, time ≤ top.time))

/-- The loop's operations, where it makes them. -/
def step (a : Agenda J) : Op J → Option (Agenda J)
  | .callSoon call => some (a.callSoon call)
  | .callAt time call => some (a.callAt time call)
  | .cancel id => some (a.cancel id)
  | .crashTasks tasks => some (a.crashTasks tasks)
  | .dropTops => some a.dropTops
  | .compactReady => some a.compactReady
  | .advance time => if a.Awaits time then some {a with now := time} else none
  | .wake => some a.wake
  | .take index =>
    if a.hand.isNone && (a.ready[index]?).any fun h => !a.isDead h then some (a.take index) else none
  | .run => some a.run
  | .lose => some a.lose
  | .reviveCrashed => some a.reviveCrashed

end Agenda

end Simloom
