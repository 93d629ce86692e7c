import Mathlib.Data.List.Basic

/-! The choice tape.

Every decision of a simulated run is a labelled, bounded integer draw from one
tape. A generating tape answers from a seeded generator; a replaying tape
answers from a recording until a request does not match it. What happens then
is the policy: a strict tape refuses the draw and stays where it was, a fallback
tape stops consulting the recording for good and improvises. Either way every
answered draw is recorded again, so `draws` is the universe that was realised. -/
namespace Simloom

/-- One recorded decision: `value` was drawn from `[0, bound)` at the site `label`.
The constructor's range check is the field `value_lt`. -/
structure Draw where
  label : String
  value : Nat
  bound : Nat
  value_lt : value < bound
deriving DecidableEq, Repr

theorem Draw.bound_pos (d : Draw) : 0 < d.bound := Nat.lt_of_le_of_lt (Nat.zero_le _) d.value_lt

/-- The draw that answers `v` to a request. -/
def Draw.answer (label : String) {bound : Nat} (v : Fin bound) : Draw := ⟨label, v, bound, v.isLt⟩

inductive MisalignmentPolicy where
  | strict
  | fallback
deriving DecidableEq, Repr

/-- What fills the draws after a divergence under `fallback`. -/
inductive Fallback where
  | rng
  | zero
deriving DecidableEq, Repr

/-! ### Refusals -/

/-- What `_diverge` is told: the request, and what the recording has instead. -/
inductive Divergence where
  | exhausted (position : Nat) (label : String) (bound recorded : Nat)
  | mismatched (position : Nat) (label : String) (bound : Nat)
      (recordedLabel : String) (recordedBound : Nat)
deriving DecidableEq, Repr

/-- Why a draw raised: a `ValueError` for the bound, or a `TapeMisalignmentError`. -/
inductive TapeError where
  | invalidBound (bound : Nat)
  | misaligned (detail : Divergence)
deriving DecidableEq, Repr

def TapeError.isMisalignment : TapeError → Bool
  | .invalidBound _ => false
  | .misaligned _ => true

/-- How Python quotes a label: double quotes only when it holds a single quote and
no double one; backslashes, the quote and the common control characters escaped. -/
def quoteLabel (label : String) : String :=
  let quote := if label.toList.contains '\'' && !label.toList.contains '"' then '"' else '\''
  let escape (c : Char) : List Char :=
    if c == '\\' || c == quote then ['\\', c]
    else if c == '\n' then ['\\', 'n']
    else if c == '\r' then ['\\', 'r']
    else if c == '\t' then ['\\', 't']
    else [c]
  String.ofList (quote :: label.toList.flatMap escape ++ [quote])

def Divergence.detail : Divergence → String
  | .exhausted position label bound recorded =>
    "tape exhausted: draw #" ++ toString position ++ " (" ++ quoteLabel label ++ ", bound " ++
      toString bound ++ ") requested but only " ++ toString recorded ++ " draws were recorded"
  | .mismatched position label bound recordedLabel recordedBound =>
    "draw #" ++ toString position ++ " requested (" ++ quoteLabel label ++ ", bound " ++
      toString bound ++ ") but the tape recorded (" ++ quoteLabel recordedLabel ++ ", bound " ++
      toString recordedBound ++ ")"

def TapeError.message : TapeError → String
  | .invalidBound bound => "draw bound must be >= 1, got " ++ toString bound
  | .misaligned detail => detail.detail ++
      ". The execution diverged from the recording — the code under test changed, hash " ++
      "randomization is unpinned across processes, or nondeterminism escaped the simulation."

/-! ### Generators -/

/-- `random.Random`: a seeded generator whose `randrange` answers in range. -/
structure RandomSource where
  State : Type
  seeded : Int → State
  randrange : State → (bound : Nat) → 0 < bound → Fin bound × State

/-- The simplest source: every `randrange` answers 0, as `_ZeroRandom` does. -/
def zeroSource : RandomSource := ⟨Unit, fun _ => (), fun _ _ h => (⟨0, h⟩, ())⟩

/-- What a tape improvises from: a seeded generator, or `_ZeroRandom`. -/
inductive Generator (R : RandomSource) where
  | seeded (state : R.State)
  | zero

def Generator.randrange {R : RandomSource} (g : Generator R) (bound : Nat) (h : 0 < bound) :
    Fin bound × Generator R :=
  match g with
  | .seeded state => ((R.randrange state bound h).1, .seeded (R.randrange state bound h).2)
  | .zero => (⟨0, h⟩, .zero)

/-! ### The tape -/

/-- `position` counts the recorded draws, so it is their number. -/
structure Tape (R : RandomSource) where
  rng : Generator R
  seed : Option Int
  recorded : Option (List Draw)
  policy : MisalignmentPolicy
  fallbackSeed : Int
  position : Nat
  misalignedAt : Option Nat
  draws : List Draw
  position_eq : position = draws.length

namespace Tape
variable {R : RandomSource}

/-- A fresh universe from a seed. -/
def generate (seed : Int) : Tape R :=
  ⟨.seeded (R.seeded seed), some seed, none, .strict, 0, 0, none, [], rfl⟩

/-- Re-feed a recorded universe to a re-execution. -/
def replay (recorded : List Draw) (policy : MisalignmentPolicy) (fallbackSeed : Int)
    (fallback : Fallback) : Tape R :=
  let rng := match fallback with
    | .zero => .zero
    | .rng => .seeded (R.seeded fallbackSeed)
  ⟨rng, none, some recorded, policy, fallbackSeed, 0, none, [], rfl⟩

/-- `replay` with the defaults of the source: strict, seed 0, `"rng"`. -/
def replayStrict (recorded : List Draw) : Tape R := replay recorded .strict 0 .rng

/-- An answer from the generator instead of the recording. -/
def improvise (t : Tape R) (bound : Nat) (h : 0 < bound) : Fin bound × Tape R :=
  ((t.rng.randrange bound h).1, {t with rng := (t.rng.randrange bound h).2})

/-- A strict tape raises and is left as it was; a fallback tape notes where. -/
def diverge (t : Tape R) (detail : Divergence) : Except TapeError (Tape R) :=
  match t.policy with
  | .strict => .error (.misaligned detail)
  | .fallback => .ok {t with misalignedAt := some t.position}

def nextValue (t : Tape R) (label : String) (bound : Nat) (h : 0 < bound) :
    Except TapeError (Fin bound × Tape R) :=
  match t.recorded with
  | none => .ok (t.improvise bound h)
  | some recorded =>
    if t.misalignedAt.isSome then .ok (t.improvise bound h)
    else match recorded[t.position]? with
      | none => (t.diverge (.exhausted t.position label bound recorded.length)).map
          (·.improvise bound h)
      | some d =>
        if hd : d.label = label ∧ d.bound = bound then .ok (⟨d.value, hd.2 ▸ d.value_lt⟩, t)
        else (t.diverge (.mismatched t.position label bound d.label d.bound)).map
          (·.improvise bound h)

/-- Record an answered draw. -/
def push (t : Tape R) (d : Draw) : Tape R :=
  {t with draws := t.draws ++ [d], position := t.position + 1
          position_eq := by rw [t.position_eq, List.length_append, List.length_singleton]}

/-- Draw an integer in `[0, bound)` at the site `label`. -/
def draw (t : Tape R) (label : String) (bound : Nat) : Except TapeError (Fin bound × Tape R) :=
  if h : 0 < bound then
    (t.nextValue label bound h).map fun a => (a.1, a.2.push (Draw.answer label a.1))
  else .error (.invalidBound bound)

/-- Stop consulting the recording, whatever the policy. -/
def forceFallback (t : Tape R) : Tape R :=
  if t.recorded.isSome && t.misalignedAt.isNone then {t with misalignedAt := some t.position}
  else t

theorem forceFallback_draws (t : Tape R) : t.forceFallback.draws = t.draws := by
  unfold forceFallback
  split <;> rfl

def isReplay (t : Tape R) : Bool := t.recorded.isSome

def recordedLength (t : Tape R) : Option Nat := t.recorded.map List.length

/-- The full recording was replayed without divergence. -/
def replayExact (t : Tape R) : Bool :=
  t.misalignedAt.isNone && (t.recordedLength == some t.position)

end Tape

end Simloom
