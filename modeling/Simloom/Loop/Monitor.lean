import Mathlib.Algebra.Order.Ring.Rat

/-! Property monitors: the bookkeeping and the verdicts of `MonitorSet`.

A predicate is evaluated between the loop's steps, on the program's state; it may read the
clock. `afterStep` checks safety and opens and discharges what the liveness monitors are
owed, `fireDue` enforces the deadlines that have come, `finalize` those that are still
open when the run ends. Each stops at the first violation. -/
namespace Simloom
variable {σ : Type}

abbrev Predicate (σ : Type) := σ → ℚ → Bool

/-- `always`: a safety property. -/
structure Always (σ : Type) where
  label : String
  predicate : Predicate σ

/-- `eventually`: a goal with a deadline. The last three fields are not the source's: the
time of the registration, the time that was given, and the number of steps that had been
made. -/
structure Eventually (σ : Type) where
  label : String
  predicate : Predicate σ
  deadline : ℚ
  satisfied : Bool
  made : ℚ
  within : ℚ
  since : Nat

/-- `leads_to`: a response to every trigger. `since` is not the source's. -/
structure LeadsTo (σ : Type) where
  label : String
  trigger : Predicate σ
  response : Predicate σ
  within : ℚ
  armedDeadline : Option ℚ
  since : Nat

structure MonitorSet (σ : Type) where
  always : List (Always σ)
  eventually : List (Eventually σ)
  leadsTo : List (LeadsTo σ)

/-! ### Violations -/

inductive PropertyKind where
  | safety
  | liveness
deriving DecidableEq, Repr

def PropertyKind.name : PropertyKind → String
  | .safety => "safety"
  | .liveness => "liveness"

/-- Which monitor, by its place in its list. -/
inductive MonitorRef where
  | always (index : Nat)
  | eventually (index : Nat)
  | leadsTo (index : Nat)
deriving DecidableEq, Repr

/-- `InvariantViolation`. `source` is not the source's: the monitor that was violated. -/
structure Violation where
  label : String
  kind : PropertyKind
  t : ℚ
  detail : String
  source : MonitorRef
deriving DecidableEq, Repr

/-- Go through monitors up to the first violation. -/
def sweep {α : Type} (f : Nat → α → α × Option Violation) :
    Nat → List α → List α × Option Violation
  | _, [] => ([], none)
  | i, m :: rest =>
    match f i m with
    | (m', some v) => (m' :: rest, some v)
    | (m', none) => (m' :: (sweep f (i + 1) rest).1, (sweep f (i + 1) rest).2)

/-! ### One monitor -/

def Always.check (s : σ) (now : ℚ) (i : Nat) (m : Always σ) : Always σ × Option Violation :=
  if m.predicate s now then (m, none)
  else (m, some ⟨m.label, .safety, now, "predicate became false", .always i⟩)

namespace Eventually

def check (s : σ) (now : ℚ) (e : Eventually σ) : Eventually σ :=
  if !e.satisfied && e.predicate s now then {e with satisfied := true} else e

/-- Settle a goal, or report it at `t`. -/
def demand (s : σ) (now t : ℚ) (detail : String) (i : Nat) (e : Eventually σ) :
    Eventually σ × Option Violation :=
  if e.predicate s now then ({e with satisfied := true}, none)
  else (e, some ⟨e.label, .liveness, t, detail, .eventually i⟩)

def fireDue (s : σ) (now : ℚ) (i : Nat) (e : Eventually σ) : Eventually σ × Option Violation :=
  if !e.satisfied && e.deadline ≤ now then
    e.demand s now e.deadline "not satisfied within its deadline" i
  else (e, none)

def finalize (s : σ) (now : ℚ) (i : Nat) (e : Eventually σ) : Eventually σ × Option Violation :=
  if !e.satisfied then e.demand s now now "never satisfied before the run ended" i else (e, none)

end Eventually

namespace LeadsTo

/-- Discharge what is owed, or owe what is triggered. -/
def check (s : σ) (now : ℚ) (m : LeadsTo σ) : LeadsTo σ :=
  match m.armedDeadline with
  | some _ => if m.response s now then {m with armedDeadline := none} else m
  | none =>
    if m.trigger s now && !m.response s now then {m with armedDeadline := some (now + m.within)}
    else m

def fireDue (s : σ) (now : ℚ) (i : Nat) (m : LeadsTo σ) : LeadsTo σ × Option Violation :=
  match m.armedDeadline with
  | some deadline =>
    if deadline ≤ now then
      if m.response s now then ({m with armedDeadline := none}, none)
      else (m, some ⟨m.label, .liveness, deadline,
        "response did not follow trigger within its deadline", .leadsTo i⟩)
    else (m, none)
  | none => (m, none)

def finalize (s : σ) (now : ℚ) (i : Nat) (m : LeadsTo σ) : LeadsTo σ × Option Violation :=
  if m.armedDeadline.isSome && !m.response s now then
    (m, some ⟨m.label, .liveness, now, "response still pending when the run ended", .leadsTo i⟩)
  else (m, none)

end LeadsTo

/-! ### The set -/

namespace MonitorSet

def new : MonitorSet σ := ⟨[], [], []⟩

def isEmpty (ms : MonitorSet σ) : Bool :=
  ms.always.isEmpty && ms.eventually.isEmpty && ms.leadsTo.isEmpty

/-- `always`; an empty label is refused. -/
def addAlways (ms : MonitorSet σ) (label : String) (predicate : Predicate σ) : MonitorSet σ :=
  if label = "" then ms else {ms with always := ms.always ++ [⟨label, predicate⟩]}

/-- `eventually`; so is a `within` that is not positive. -/
def addEventually (ms : MonitorSet σ) (label : String) (predicate : Predicate σ) (within now : ℚ)
    (since : Nat) : MonitorSet σ :=
  if within ≤ 0 ∨ label = "" then ms
  else {ms with eventually := ms.eventually ++ [⟨label, predicate, now + within, false, now, within, since⟩]}

def addLeadsTo (ms : MonitorSet σ) (label : String) (trigger response : Predicate σ) (within : ℚ)
    (since : Nat) : MonitorSet σ :=
  if label = "" ∨ within ≤ 0 then ms
  else {ms with leadsTo := ms.leadsTo ++ [⟨label, trigger, response, within, none, since⟩]}

/-- Every monitor at a step boundary; liveness deadlines are not enforced here. -/
def afterStep (ms : MonitorSet σ) (s : σ) (now : ℚ) : MonitorSet σ × Option Violation :=
  match (sweep (Always.check s now) 0 ms.always).2 with
  | some v => (ms, some v)
  | none =>
    ({ms with eventually := ms.eventually.map (·.check s now)
              leadsTo := ms.leadsTo.map (·.check s now)}, none)

/-- What is owed now. -/
def deadlines (ms : MonitorSet σ) : List ℚ :=
  (ms.eventually.filterMap fun e => if e.satisfied then none else some e.deadline) ++
    ms.leadsTo.filterMap (·.armedDeadline)

def nextDeadline (ms : MonitorSet σ) : Option ℚ := ms.deadlines.min?

/-- Goals first, then responses. -/
def demand (ms : MonitorSet σ) (f : Nat → Eventually σ → Eventually σ × Option Violation)
    (g : Nat → LeadsTo σ → LeadsTo σ × Option Violation) : MonitorSet σ × Option Violation :=
  match sweep f 0 ms.eventually with
  | (es, some v) => ({ms with eventually := es}, some v)
  | (es, none) =>
    ({ms with eventually := es, leadsTo := (sweep g 0 ms.leadsTo).1}, (sweep g 0 ms.leadsTo).2)

def fireDue (ms : MonitorSet σ) (s : σ) (now : ℚ) : MonitorSet σ × Option Violation :=
  ms.demand (Eventually.fireDue s now) (LeadsTo.fireDue s now)

def finalize (ms : MonitorSet σ) (s : σ) (now : ℚ) : MonitorSet σ × Option Violation :=
  ms.demand (Eventually.finalize s now) (LeadsTo.finalize s now)

end MonitorSet

end Simloom
