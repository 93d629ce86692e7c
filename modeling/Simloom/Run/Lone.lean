import Simloom.Run.Pct

/-! Programs of a single task.

A `Coroutine` draws, gives way with `sleep(0)`, and returns or raises. `lone` is the program
that has it as its main, with all that the loop itself does around it: every step is picked
and logged, the two callbacks of a finished task compete for the scheduler, and the teardown
runs the task of `shutdown_asyncgens` and what the body left in the ready list. So a run logs
at least six steps, and the tape holds the loop's own draws beside main's. -/
namespace Simloom
variable {R : RandomSource}

/-! ### Scripts -/

/-- A process, request by request. -/
inductive Script (α : Type) where
  | done (result : α)
  | ask (label : String) (bound : Nat) (next : Reply → Script α)

namespace Script
variable {α β : Type}

def bind : Script α → (α → Script β) → Script β
  | .done a, f => f a
  | .ask label bound next, f => .ask label bound fun reply => (next reply).bind f

instance : Monad Script where
  pure := .done
  bind := bind

/-- The next move, given the replies so far. -/
def process : Script α → Process α
  | .done a, _ => .finish a
  | .ask label bound _, [] => .draw label bound
  | .ask _ _ next, reply :: rest => (next reply).process rest

/-- What a tape makes of a script. -/
def play : Script α → Tape R → α × Tape R
  | .done a, t => (a, t)
  | .ask label bound next, t => match t.draw label bound with
    | .ok (v, u) => (next (.ok v.val)).play u
    | .error e => (next (.error e)).play t

theorem play_bind (s : Script α) (f : α → Script β) (t : Tape R) :
    (s >>= f).play t = (f (s.play t).1).play (s.play t).2 := by
  show (s.bind f).play t = _
  induction s generalizing t with
  | done a => rfl
  | ask label bound next ih =>
    simp only [bind, play]
    cases t.draw label bound with
    | ok a => exact ih (.ok a.1.val) a.2
    | error e => exact ih (.error e) t

end Script

/-! ### Picking -/

namespace Pct

/-- `_priority` -/
def askPriority (s : Pct) (entity : Int) : Script (Except TapeError Priority × Pct) :=
  match s.priorities.get? entity with
  | some found => .done (.ok found, s)
  | none => .ask "pct.prio" 1024 fun
    | .error e => .done (.error e, s)
    | .ok v =>
      let found : Priority := toLex ((v : Int), -entity)
      .done (.ok found, {s with priorities := s.priorities.set entity found})

def askRank (s : Pct) : List Int → Script (Except TapeError (List Priority) × Pct)
  | [] => .done (.ok [], s)
  | entity :: rest => do
    let (p, s) ← s.askPriority entity
    match p with
    | .error e => return (.error e, s)
    | .ok p =>
      let (ps, s) ← askRank s rest
      return (ps.map (p :: ·), s)

def askPick (s : Pct) (entities : List Int) : Script (Except TapeError Nat × Pct) :=
  if entities.length = 1 then .done (.ok 0, s.settle (entities.getD 0 (-1)))
  else do
    let (ps, s) ← s.askRank entities
    match ps with
    | .error e => return (.error e, s)
    | .ok ps => return (.ok (choose ps), s.settle (entities.getD (choose ps) (-1)))

theorem play_askPriority (s : Pct) (entity : Int) (t : Tape R) :
    (s.askPriority entity).play t =
      (((s.priority t entity).1, (s.priority t entity).2.1), (s.priority t entity).2.2) := by
  unfold askPriority priority
  cases s.priorities.get? entity with
  | some found => rfl
  | none =>
    simp only [Script.play]
    cases t.draw "pct.prio" 1024 <;> rfl

theorem play_askRank (s : Pct) (entities : List Int) (t : Tape R) :
    (s.askRank entities).play t =
      (((s.rank t entities).1, (s.rank t entities).2.1), (s.rank t entities).2.2) := by
  induction entities generalizing s t with
  | nil => rfl
  | cons entity rest ih =>
    simp only [askRank, rank, Script.play_bind, play_askPriority]
    rcases s.priority t entity with ⟨p, s', u⟩
    cases p with
    | error e => rfl
    | ok p =>
      simp only [Script.play_bind, ih]
      rcases s'.rank u rest with ⟨ps, s'', w⟩
      cases ps <;> rfl

/-- A pick of the script is one of `_PCT`. -/
theorem play_askPick (s : Pct) (entities : List Int) (t : Tape R) :
    (s.askPick entities).play t =
      (((s.pick t entities).1, (s.pick t entities).2.1), (s.pick t entities).2.2) := by
  unfold askPick pick compete
  split
  next => rfl
  next =>
    simp only [Script.play_bind, play_askRank]
    rcases s.rank t entities with ⟨ps, s', u⟩
    cases ps <;> rfl

end Pct

/-! ### The loop -/

/-- A main without other tasks: it draws, gives way, and in the end returns or raises. A draw
that is refused raises in it. -/
inductive Coroutine where
  | draw (label : String) (bound : Nat) (next : Nat → Coroutine)
  | sleep (rest : Coroutine)
  | finish (error : Option PyException)

/-- A handle: a task's next step, the loop's own callback of a task that is done, and the one
of `run_until_complete`, which stops the loop. Main is task 0, `shutdown_asyncgens` task 1. -/
inductive LoneHandle where
  | step (task : Nat)
  | taskDone (task : Nat)
  | stop
deriving DecidableEq

/-- `describe_callback` -/
def LoneHandle.ran : LoneHandle → String
  | .step task => "task-" ++ toString task ++ ".step"
  | .taskDone _ => "SimLoop._on_task_done"
  | .stop => "SimLoop.run_until_complete.<locals>._on_done"

/-- Only a step is bound to a task. -/
def LoneHandle.entity : LoneHandle → Int
  | .step task => task
  | .taskDone _ => -1
  | .stop => -1

inductive Picker where
  | randomWalk
  | pct (s : Pct)

def Picker.pick : Picker → List LoneHandle → Script (Except TapeError Nat × Picker)
  | .randomWalk, ready =>
    if ready.length = 1 then .done (.ok 0, .randomWalk)
    else .ask "sched.pick" ready.length fun reply => .done (reply, .randomWalk)
  | .pct s, ready => do
    let (index, s) ← s.askPick (ready.map LoneHandle.entity)
    return (index, .pct s)

structure Lone where
  picker : Picker
  ready : List LoneHandle
  log : List Event
  now : Rat

namespace Lone

def emit (l : Lone) (kind : String) (fields : List (String × Json)) : Lone :=
  {l with log := l.log ++ [⟨kind, l.now, fields⟩]}

/-- `create_task` -/
def createTask (l : Lone) (task : Nat) (coro : String) : Lone :=
  {l with ready := l.ready ++ [LoneHandle.step task]}.emit "task_created"
    [("task", .str ("task-" ++ toString task)), ("coro", .str coro)]

/-- A task is done: its callbacks are ready. -/
def finishTask (l : Lone) (task : Nat) : Lone :=
  {l with ready := l.ready ++ [.taskDone task, LoneHandle.stop]}

/-- Pick a handle and log the step. A refused draw raises out of the loop. -/
def choose (l : Lone) : Script (Except PyException LoneHandle × Lone) := do
  let (index, picker) ← l.picker.pick l.ready
  let l := {l with picker := picker}
  match index with
  | .error e => return (.error e.exception, l)
  | .ok index =>
    let handle := l.ready.getD index .stop
    let chosen := {l with ready := l.ready.eraseIdx index}.emit "step"
      [("choice", .int index), ("ready", .int l.ready.length), ("ran", .str handle.ran)]
    return (.ok handle, chosen)

/-- Run a callback, or the one step of `shutdown_asyncgens`. -/
def perform (l : Lone) : LoneHandle → Lone
  | .step task => l.finishTask task
  | .taskDone task => l.emit "task_done"
      [("task", .str ("task-" ++ toString task)), ("outcome", .str "finished")]
  | .stop => l

/-- `run_forever`, for as many steps. -/
def runForever : Nat → Lone → Script (Option PyException × Lone)
  | 0, l => return (none, l)
  | fuel + 1, l => do
    let (handle, l) ← l.choose
    match handle with
    | .error e => return (some e, l)
    | .ok .stop => return (none, l)
    | .ok handle => runForever fuel (l.perform handle)

/-- `_drain_ready`, for as many steps. -/
def drainReady : Nat → Lone → Script (Option PyException × Lone)
  | 0, l => return (none, l)
  | fuel + 1, l =>
    if l.ready = [] then return (none, l)
    else do
      let (handle, l) ← l.choose
      match handle with
      | .error e => return (some e, l)
      | .ok handle => drainReady fuel (l.perform handle)

/-- Main runs from where it is to its end. Until then its step is the only handle. -/
def runMain : Coroutine → Lone → Script (Option PyException × Lone)
  | .draw label bound next, l => .ask label bound fun
    | .ok v => runMain (next v) l
    | .error e => return (some e.exception, l.finishTask 0)
  | .sleep rest, l => do
    let (_, l) ← {l with ready := [.step 0]}.choose
    runMain rest l
  | .finish error, l => return (error, l.finishTask 0)

/-- The run of main: its steps and then, in some order, its callbacks up to the stop. -/
def runUntilComplete (main : Coroutine) (l : Lone) : Script (Option PyException × Lone) := do
  let (_, l) ← (l.createTask 0 "main").choose
  let (error, l) ← runMain main l
  let (refused, l) ← runForever 2 l
  return (refused.or error, l)

/-- `_teardown`: there is only `shutdown_asyncgens` to run. The stop that a refused pick left
behind in the body stops that early. -/
def teardown (l : Lone) : Script (Option PyException × Lone) := do
  let l := l.createTask 1 "SimLoop.shutdown_asyncgens"
  let (refused, l) ← runForever 5 l
  match refused with
  | some e => return (some e, l)
  | none =>
    if LoneHandle.step 1 ∈ l.ready then
      return (some ⟨runtimeError, "event loop stopped before the future completed"⟩, l)
    else drainReady 5 l

def start (setting : Setting) : Lone where
  picker := match setting.scheduler with
    | .randomWalk => .randomWalk
    | .pct changePoints => .pct (.start changePoints)
  ready := []
  log := []
  now := setting.options.epoch

end Lone

def exitOf (error : Option PyException) : Exit := (error.map Exit.raised).getD .returned

/-- The program whose main this is, on a loop without causal tracing, which neither collects
garbage nor sees a livelock in so few steps. -/
def lone (main : Coroutine) : Program where
  wantsWorld := .ok false
  body setting := Script.process do
    let (error, l) ← (Lone.start setting).runUntilComplete main
    return ⟨exitOf error, Script.process do
      let (error, l) ← l.teardown
      return ⟨exitOf error, [], l.log, l.now, []⟩⟩

/-- A result that can be computed and checked. -/
theorem ok_of_computed {ε α : Type} {x : Except ε α} {P : α → Prop} [DecidablePred P]
    (h : (x.toOption.any fun a => decide (P a)) = true) : ∃ a, x = .ok a ∧ P a := by
  cases x with
  | error e => cases h
  | ok a => exact ⟨a, rfl, of_decide_eq_true h⟩

end Simloom
