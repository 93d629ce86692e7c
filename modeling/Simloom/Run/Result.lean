import Simloom.Tape.Document

/-! The record of one run: exceptions, events, schedulers, results. -/
namespace Simloom

/-! ### Exceptions -/

/-- An exception class by name, with the names of its proper superclasses. -/
structure ExceptionType where
  name : String
  bases : List String
deriving DecidableEq, Repr

/-- `issubclass(a, b)`. -/
def ExceptionType.isSubclass (a b : ExceptionType) : Bool :=
  a.name == b.name || b.name ∈ a.bases

structure PyException where
  type : ExceptionType
  message : String
deriving DecidableEq, Repr

def simloomError (name : String) : ExceptionType :=
  ⟨name, ["SimloomError", "Exception", "BaseException"]⟩

def valueError : ExceptionType := ⟨"ValueError", ["Exception", "BaseException"]⟩
def runtimeError : ExceptionType := ⟨"RuntimeError", ["Exception", "BaseException"]⟩
def typeError : ExceptionType := ⟨"TypeError", ["Exception", "BaseException"]⟩
def tapeMisalignmentError : ExceptionType := simloomError "TapeMisalignmentError"
def unhandledExceptionError : ExceptionType := simloomError "UnhandledExceptionError"
def nondeterminismError : ExceptionType := simloomError "SimloomNondeterminismError"

/-- `isinstance(exc, TapeMisalignmentError)`. -/
def PyException.isMisalignment (e : PyException) : Bool := e.type.isSubclass tapeMisalignmentError

/-- The exception a refused draw raises. -/
def TapeError.exception (e : TapeError) : PyException :=
  ⟨if e.isMisalignment then tapeMisalignmentError else valueError, e.message⟩

/-- A call that does not return: it raised, or it never ends. -/
inductive Halt where
  | raised (e : PyException)
  | hung
deriving DecidableEq, Repr

/-! ### Scheduling strategies -/

/-- A strategy, under the descriptor that a run records for it. -/
inductive Strategy where
  | random
  | pct (depth horizon : Int)
deriving DecidableEq, Repr

/-- What a caller may ask for: nothing, `"random"`, `"pct"` with its parameters where
given, or `"pct:auto"` with its depth where given. -/
inductive SchedulerSpec where
  | unspecified
  | random
  | pct (depth horizon : Option Int)
  | pctAuto (depth : Option Int)
deriving DecidableEq, Repr

/-- The depth of an auto-horizon request. -/
def autoPctDepth : SchedulerSpec → Option Int
  | .pctAuto depth => some (depth.getD 3)
  | _ => none

/-- The strategy of a concrete request; an auto-horizon one must be resolved first. -/
def resolveScheduler : SchedulerSpec → Except PyException Strategy
  | .unspecified => .ok .random
  | .random => .ok .random
  | .pct depth horizon => .ok (.pct (depth.getD 3) (horizon.getD 4096))
  | .pctAuto _ => .error ⟨valueError, "'pct:auto' must be resolved by run()/explore() (it probes " ++
      "a run to measure the horizon); it cannot be resolved standalone"⟩

/-- A descriptor handed back as a request. -/
def Strategy.spec : Strategy → SchedulerSpec
  | .random => .random
  | .pct depth horizon => .pct (some depth) (some horizon)

theorem resolveScheduler_spec (s : Strategy) : resolveScheduler s.spec = .ok s := by
  cases s <;> rfl

/-! ### Results -/

structure Event where
  kind : String
  t : Rat
  fields : List (String × Json)

inductive Outcome where
  | ok
  | error
deriving DecidableEq, Repr

/-- The complete record of one simulated universe. The constructor's check is the
field `consistent`. -/
structure RunResult where
  outcome : Outcome
  error : Option PyException
  seed : Option Int
  tape : List Draw
  log : List Event
  coverage : List (String × Nat)
  scheduler : Strategy
  consistent : outcome = .error ↔ error.isSome

/-- What a run leaves besides its tape. -/
structure Report where
  error : Option PyException
  log : List Event
  coverage : List (String × Nat)

/-- The outcome that goes with an error. -/
def outcomeOf : Option PyException → Outcome
  | none => .ok
  | some _ => .error

theorem outcomeOf_error (error : Option PyException) :
    outcomeOf error = .error ↔ error.isSome := by
  cases error <;> simp [outcomeOf]

def Report.result (r : Report) (seed : Option Int) (tape : List Draw) (scheduler : Strategy) :
    RunResult :=
  ⟨outcomeOf r.error, r.error, seed, tape, r.log, r.coverage, scheduler, outcomeOf_error r.error⟩

/-- The part of a result that its tape determines. -/
def RunResult.report (r : RunResult) : Report := ⟨r.error, r.log, r.coverage⟩

/-- One failure of a campaign: its seed or index, the exception's type and text. -/
structure Failure where
  seed : Int
  error : String
  message : String
deriving DecidableEq, Repr

/-- `Failure(seed, type(error).__name__, str(error)[:200])`. -/
def PyException.failure (e : PyException) (seed : Int) : Failure :=
  ⟨seed, e.type.name, String.ofList (e.message.toList.take 200)⟩

end Simloom
