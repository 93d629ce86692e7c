import Simloom.Loop.Agenda
import Simloom.Loop.Monitor
import Simloom.Run.Result

/-! `SimLoop`: the deterministic event loop.

What the program does is a parameter: a callback is a function of the program's state, the
clock, the number of handles made so far (which names the handles that it makes) and the
tape, to a new state and tape, a list of deeds on the loop, and what it raised. So is the
scheduler, which may draw from the tape and be refused. The loop itself is as in the
source: one call of `_run_once` compacts, finds out whether time may pass, wakes timers,
takes a handle and runs it, and checks the monitors. A call that raises leaves a state
too. -/
namespace Simloom
variable {R : RandomSource} {σ J κ : Type}

/-! ### The program and the scheduler -/

/-- What code can do to the loop. -/
inductive Deed (σ J : Type) where
  | callSoon (call : Callable J)
  | callAt (time : ℚ) (call : Callable J)
  | cancel (id : HandleId)
  | crashTasks (tasks : List TaskId)
  | stop
  | emit (event : Event)
  | always (label : String) (predicate : Predicate σ)
  | eventually (label : String) (predicate : Predicate σ) (within : ℚ)
  | leadsTo (label : String) (trigger response : Predicate σ) (within : ℚ)

/-- What running code leaves. -/
structure Effect (R : RandomSource) (σ J : Type) where
  state : σ
  tape : Tape R
  deeds : List (Deed σ J)
  raised : Option PyException

/-- Code, given the program's state, the time, the next handle's number and the tape. -/
abbrev Code (R : RandomSource) (σ J : Type) := σ → ℚ → HandleId → Tape R → Effect R σ J

/-- The program. `call` runs a callback; what it raises there is what gets past the loop's
exception handler. `collect` is a garbage collection with the finalizers it runs. `describe`
is `describe_callback`, `waiting` the labels of the tasks that a deadlock reports, given the
crashed ones, and `same` is equality of callbacks with their arguments. -/
structure UserCode (R : RandomSource) (σ J : Type) where
  call : J → Code R σ J
  collect : Code R σ J
  describe : σ → J → String
  waiting : σ → List TaskId → List String
  same : Callable J → Callable J → Bool

/-- A strategy picks one of the ready handles, or is refused a draw. -/
structure Scheduler (R : RandomSource) (J κ : Type) where
  pick : (first : Handle J) → (rest : List (Handle J)) → κ → Tape R →
    Except TapeError (Fin (rest.length + 1)) × κ × Tape R

/-- The default strategy: a forced pick draws nothing. -/
def randomWalk : Scheduler R J Unit where
  pick := fun _ rest _ t =>
    if rest.isEmpty then (.ok 0, (), t)
    else
      match t.draw "sched.pick" (rest.length + 1) with
      | .ok (index, t') => (.ok index, (), t')
      | .error e => (.error e, (), t)

/-- A loop's fixed parts. -/
structure LoopConfig (R : RandomSource) (σ J κ : Type) where
  code : UserCode R σ J
  scheduler : Scheduler R J κ
  gcInterval : Int
  maxStepsPerInstant : Int
  causal : Bool

/-! ### The loop -/

/-- Why a callback runs: the step that scheduled it, and how. -/
structure Cause where
  wokeBy : Option Nat
  via : String

/-- `causes` is `_handle_cause`, a dictionary whose keys are handles. `boundaries` is not the
source's: time and program state after each executed step. -/
structure SimLoop (R : RandomSource) (σ J κ : Type) where
  agenda : Agenda J
  user : σ
  tape : Tape R
  scheduler : κ
  monitors : MonitorSet σ
  monitoringEnabled : Bool
  stopping : Bool
  stepSeq : Nat
  currentStep : Option Nat
  causes : List (Handle J × Cause)
  instantTime : ℚ
  instantSteps : Int
  log : List Event
  boundaries : List (ℚ × σ)

/-- What gets out of a call of the loop. -/
inductive LoopError where
  | deadlock (waiting : List String)
  | livelock (steps : Int) (t : ℚ)
  | violation (v : Violation)
  | refused (e : TapeError)
  | raised (e : PyException)
  | drainLimit

/-- What a call of the loop leaves, and what it raised. -/
abbrev Turn (R : RandomSource) (σ J κ : Type) := SimLoop R σ J κ × Option LoopError

namespace SimLoop

def start (epoch : ℚ) (user : σ) (tape : Tape R) (scheduler : κ) : SimLoop R σ J κ :=
  ⟨.start epoch, user, tape, scheduler, .new, true, false, 0, none, [], epoch, 0, [], []⟩

section Code
variable (c : LoopConfig R σ J κ) (l : SimLoop R σ J κ)

def now : ℚ := l.agenda.now

def emit (kind : String) (fields : List (String × Json)) : SimLoop R σ J κ :=
  {l with log := l.log ++ [⟨kind, l.now, fields⟩]}

/-! ### Causes -/

/-- Handles are equal by identity, timer handles by time, callback and cancellation. -/
def equalHandles (h k : Handle J) : Bool :=
  if h.timer.isSome && k.timer.isSome then
    h.timer == k.timer && c.code.same h.call k.call &&
      l.agenda.isCancelled h == l.agenda.isCancelled k
  else h.id == k.id

/-- Set a key; an equal key keeps its place and its handle. -/
def setCause (h : Handle J) (cause : Cause) :
    List (Handle J × Cause) → List (Handle J × Cause)
  | [] => [(h, cause)]
  | (k, old) :: rest =>
    if l.equalHandles c h k then (k, cause) :: rest else (k, old) :: setCause h cause rest

/-- The cause of a new handle. -/
def noteCause (h : Handle J) (via : String) : SimLoop R σ J κ :=
  if c.causal then {l with causes := l.setCause c h ⟨l.currentStep, via⟩ l.causes} else l

/-- `_cause_fields`, with what is left of the dictionary. -/
def causeFields (h : Handle J) : List (String × Json) × List (Handle J × Cause) :=
  if c.causal then
    match l.causes.find? fun entry => l.equalHandles c h entry.1 with
    | none => ([("woke_by", .null), ("via", .str "root")], l.causes)
    | some (_, cause) =>
      ([("woke_by", (cause.wokeBy.map fun step => Json.int step).getD .null),
        ("via", .str cause.via)],
        l.causes.eraseP fun entry => l.equalHandles c h entry.1)
  else ([], l.causes)

/-! ### Running code -/

def deed : Deed σ J → SimLoop R σ J κ
  | .callSoon call =>
    let h := l.agenda.next call none
    {l.noteCause c h "soon" with agenda := l.agenda.callSoon call}
  | .callAt time call =>
    let h := l.agenda.next call (some time)
    {l.noteCause c h "timer" with agenda := l.agenda.callAt time call}
  | .cancel id => {l with agenda := l.agenda.cancel id}
  | .crashTasks tasks => {l with agenda := l.agenda.crashTasks tasks}
  | .stop => {l with stopping := true}
  | .emit event => {l with log := l.log ++ [event]}
  | .always label predicate => {l with monitors := l.monitors.addAlways label predicate}
  | .eventually label predicate within =>
    {l with monitors :=
      l.monitors.addEventually label predicate within l.now l.boundaries.length}
  | .leadsTo label trigger response within =>
    {l with monitors := l.monitors.addLeadsTo label trigger response within l.boundaries.length}

/-- Run code of the program. -/
def perform (code : Code R σ J) : SimLoop R σ J κ × Option PyException :=
  let effect := code l.user l.now l.agenda.made l.tape
  let l := {l with user := effect.state, tape := effect.tape}
  (effect.deeds.foldl (fun l deed => l.deed c deed) l, effect.raised)

/-- `_collect_garbage`: what finalizers raise is not raised. -/
def collectGarbage : SimLoop R σ J κ := (l.perform c c.code.collect).1.emit "gc_collect" []

/-! ### Monitors -/

/-- The verdict is logged before it propagates. -/
def conclude : MonitorSet σ × Option Violation → Turn R σ J κ
  | (ms, none) => ({l with monitors := ms}, none)
  | (ms, some v) =>
    ({l with
        monitors := ms
        log := l.log ++ [⟨"invariant", v.t, [("label", .str v.label),
          ("category", .str v.kind.name)]⟩]}, some (.violation v))

def checkStep : Turn R σ J κ := l.conclude (l.monitors.afterStep l.user l.now)

def checkDue : Turn R σ J κ := l.conclude (l.monitors.fireDue l.user l.now)

def finalizeMonitors : Turn R σ J κ :=
  if l.monitors.isEmpty then (l, none) else l.conclude (l.monitors.finalize l.user l.now)

def nextDeadline : Option ℚ :=
  if l.monitors.isEmpty || !l.monitoringEnabled then none else l.monitors.nextDeadline

/-! ### One step -/

def reportDeadlock : Turn R σ J κ :=
  let waiting := c.code.waiting l.user l.agenda.crashed
  (l.emit "deadlock" [("pending", .arr (waiting.map .str))], some (.deadlock waiting))

/-- Move the clock. -/
def arrive (time : ℚ) : SimLoop R σ J κ := {l with agenda := {l.agenda with now := time}}

/-- Move the clock to a timer. -/
def jump (target : ℚ) : SimLoop R σ J κ :=
  if l.now < target then (l.arrive target).emit "clock_jump" [] else l

/-- Nothing is ready: the call ends here, or time comes to the next timer. -/
def await : Turn R σ J κ ⊕ SimLoop R σ J κ :=
  match l.agenda.scheduled with
  | [] => .inl (l.reportDeadlock c)
  | top :: _ =>
    match l.nextDeadline with
    | none => .inr (l.jump top.time)
    | some deadline =>
      if deadline ≤ l.now then .inl l.checkDue
      else if deadline < top.time then .inl (l.arrive deadline).checkDue
      else .inr (l.jump top.time)

/-- Cancelled timers leave the top of the heap, dead handles the ready list. -/
def tidy : SimLoop R σ J κ := {l with agenda := l.agenda.dropTops.compact}

/-- `_detect_livelock`, up to its verdict. -/
def countInstant : SimLoop R σ J κ :=
  {l with
    instantTime := l.now
    instantSteps := if l.now = l.instantTime then l.instantSteps + 1 else 1}

/-- Take the picked handle and log the step. -/
def takeStep (index count : Nat) (h : Handle J) : SimLoop R σ J κ :=
  {l with agenda := l.agenda.take index, causes := (l.causeFields c h).2}.emit "step"
    ([("choice", Json.int index), ("ready", .int count),
      ("ran", .str (c.code.describe l.user h.call.job))] ++ (l.causeFields c h).1)

def numberStep : SimLoop R σ J κ :=
  {l with currentStep := some l.stepSeq, stepSeq := l.stepSeq + 1}

def collectDue : SimLoop R σ J κ :=
  if c.gcInterval ≠ 0 ∧ (l.stepSeq : Int) % c.gcInterval = 0 then l.collectGarbage c else l

/-- `handle._run()`. -/
def runHandle (h : Handle J) : SimLoop R σ J κ × Option PyException :=
  perform c {l with agenda := l.agenda.run} (c.code.call h.call.job)

/-- Note a step boundary. -/
def bound : SimLoop R σ J κ := {l with boundaries := l.boundaries ++ [(l.now, l.user)]}

/-- After the callback: what got past the exception handler, or the monitors. -/
def finishStep : SimLoop R σ J κ × Option PyException → Turn R σ J κ
  | (l, some e) => (l, some (.raised e))
  | (l, none) =>
    if l.monitoringEnabled && !l.monitors.isEmpty then l.bound.checkStep else (l.bound, none)

/-- The step that runs the picked handle. -/
def execute (index count : Nat) (h : Handle J) : Turn R σ J κ :=
  let l := ((l.takeStep c index count h).numberStep).countInstant
  if c.maxStepsPerInstant < l.instantSteps then
    ({l with agenda := l.agenda.lose}, some (.livelock l.instantSteps l.now))
  else finishStep ((l.collectDue c).runHandle c h)

/-- Pick a handle and run it. -/
def choose : Turn R σ J κ :=
  match l.agenda.ready with
  | [] => (l, none)
  | first :: rest =>
    match c.scheduler.pick first rest l.scheduler l.tape with
    | (.error e, scheduler, tape) =>
      ({l with scheduler := scheduler, tape := tape}, some (.refused e))
    | (.ok index, scheduler, tape) =>
      {l with scheduler := scheduler, tape := tape}.execute c index (rest.length + 1)
        ((first :: rest).get index)

def wake : SimLoop R σ J κ := {l with agenda := l.agenda.wake}

/-- Up to the timers: the call ends, or it is time to wake them. -/
def settle : Turn R σ J κ ⊕ SimLoop R σ J κ :=
  if l.tidy.agenda.ready.isEmpty then l.tidy.await c else .inr l.tidy

/-- `_run_once`. -/
def runOnce : Turn R σ J κ :=
  match l.settle c with
  | .inl turn => turn
  | .inr l => l.wake.choose c

/-! ### Driving the loop -/

/-- `run_forever`: steps until the loop is stopped; `none` when `fuel` does not suffice. -/
def runForever : Nat → SimLoop R σ J κ → Option (Turn R σ J κ)
  | 0, _ => none
  | fuel + 1, l =>
    if l.stopping then some ({l with stopping := false}, none)
    else match l.runOnce c with
      | (l, some e) => some ({l with stopping := false}, some e)
      | (l, none) => runForever fuel l

/-- A step of `_drain_ready`: no livelock detection, no collection, no monitors. -/
def drainStep (index count : Nat) (h : Handle J) : SimLoop R σ J κ × Option PyException :=
  ((l.takeStep c index count h).runHandle c h)

/-- `_drain_ready(limit)`. -/
def drainReady : Nat → SimLoop R σ J κ → Turn R σ J κ
  | 0, l => (l, some .drainLimit)
  | limit + 1, l =>
    let l := {l with agenda := l.agenda.compact}
    match l.agenda.ready with
    | [] => (l, none)
    | first :: rest =>
      match c.scheduler.pick first rest l.scheduler l.tape with
      | (.error e, scheduler, tape) =>
        ({l with scheduler := scheduler, tape := tape}, some (.refused e))
      | (.ok index, scheduler, tape) =>
        match {l with scheduler := scheduler, tape := tape}.drainStep c index (rest.length + 1)
          ((first :: rest).get index) with
        | (l, some e) => (l, some (.raised e))
        | (l, none) => drainReady limit l.bound

/-- `_revive_crashed`, whose tasks are the crashed ones. -/
def reviveCrashed : SimLoop R σ J κ := {l with agenda := l.agenda.reviveCrashed}

end Code

end SimLoop

end Simloom
