import Simloom.Tape.Replay

/-! The tape document, version 1.

A document is a JSON value. Printing and parsing JSON text are `json`'s business
and take a value to itself, so a document is identified with the value its text
denotes; what is modelled is which value a tape writes and which values a reader
accepts, with every way of refusing one. -/
namespace Simloom

/-- A JSON value as `json.loads` returns it: integers and floats are apart, and an
object lists its keys once, in order. -/
inductive Json where
  | null
  | bool (b : Bool)
  | int (n : Int)
  | float (x : Rat)
  | str (s : String)
  | arr (items : List Json)
  | obj (fields : List (String × Json))

namespace Json

/-- `data.get(key)`. -/
def get (fields : List (String × Json)) (key : String) : Option Json := fields.lookup key

/-- `isinstance(value, int)` and its value: a Python `bool` is an `int`. -/
def asInt : Json → Option Int
  | .int n => some n
  | .bool b => some (if b then 1 else 0)
  | _ => none

/-- Python's `value == n`: numbers compare by value across their types. -/
def equalsInt (n : Int) : Json → Bool
  | .int m => m == n
  | .bool b => (if b then 1 else 0) == n
  | .float x => x == n
  | _ => false

/-- Python's `value == s`. -/
def equalsStr (s : String) : Json → Bool
  | .str r => r == s
  | _ => false

end Json

def tapeFormat : String := "simloom-tape"

def tapeFormatVersion : Int := 1

/-- How reading a document fails. All are `ValueError`s but `missingDraws`, which is
the `KeyError` of `data["draws"]`. -/
inductive DocumentError where
  | notAnObject
  | notATape (format : Option Json)
  | unsupportedVersion (version : Option Json)
  | missingDraws
  | drawsNotAList
  | malformedEntry (entry : Json)
  | invalidBound (bound : Int)
  | valueOutside (value bound : Int)

def DocumentError.isValueError : DocumentError → Bool
  | .missingDraws => false
  | _ => true

/-- The `Draw` constructor on integers, with the checks of `__post_init__`. -/
def Draw.ofInts (label : String) (value bound : Int) : Except DocumentError Draw :=
  if bound < 1 then .error (.invalidBound bound)
  else if h : 0 ≤ value ∧ value < bound then
    .ok ⟨label, value.toNat, bound.toNat, by omega⟩
  else .error (.valueOutside value bound)

/-- `[d.label, d.value, d.bound]`. -/
def Draw.toJson (d : Draw) : Json := .arr [.str d.label, .int d.value, .int d.bound]

/-- The pattern `[str(label), int(value), int(bound)]` and the draw it builds. -/
def Draw.ofJson : Json → Except DocumentError Draw
  | entry@(.arr [.str label, value, bound]) =>
    match value.asInt, bound.asInt with
    | some value, some bound => Draw.ofInts label value bound
    | _, _ => .error (.malformedEntry entry)
  | entry => .error (.malformedEntry entry)

/-- The fields of the versioned tape document for any draw sequence. -/
def serializeDraws (draws : List Draw) (seed : Option Int) : List (String × Json) :=
  [("format", .str tapeFormat),
   ("version", .int tapeFormatVersion),
   ("seed", match seed with | none => .null | some n => .int n),
   ("draws", .arr (draws.map Draw.toJson))]

/-- Read the entries in order; the first bad one is reported. -/
def readDraws : List Json → Except DocumentError (List Draw)
  | [] => .ok []
  | entry :: rest =>
    match Draw.ofJson entry with
    | .error e => .error e
    | .ok d => (readDraws rest).map (d :: ·)

/-- Validate a serialized tape and return its draws. -/
def drawsFromDict (data : List (String × Json)) : Except DocumentError (List Draw) :=
  if !((Json.get data "format").any (·.equalsStr tapeFormat)) then
    .error (.notATape (Json.get data "format"))
  else if !((Json.get data "version").any (·.equalsInt tapeFormatVersion)) then
    .error (.unsupportedVersion (Json.get data "version"))
  else match Json.get data "draws" with
    | none => .error .missingDraws
    | some (.arr raw) => readDraws raw
    | some _ => .error .drawsNotAList

namespace Tape
variable {R : RandomSource}

def toDict (t : Tape R) : List (String × Json) := serializeDraws t.draws t.seed

/-- The document of the tape. -/
def dumps (t : Tape R) : Json := .obj t.toDict

/-- Deserialize a tape straight into replay mode. -/
def loads (serialized : Json) (policy : MisalignmentPolicy) (fallbackSeed : Int) :
    Except DocumentError (Tape R) :=
  match serialized with
  | .obj data => (drawsFromDict data).map fun draws => replay draws policy fallbackSeed .rng
  | _ => .error .notAnObject

end Tape

/-! ### What a tape writes, a reader accepts -/

theorem Draw.ofJson_toJson (d : Draw) : Draw.ofJson d.toJson = .ok d := by
  obtain ⟨label, value, bound, h⟩ := d
  have hb : ¬ ((bound : Int) < 1) := by omega
  have hv : (0 : Int) ≤ value ∧ (value : Int) < bound := by omega
  simp [Draw.toJson, Draw.ofJson, Json.asInt, Draw.ofInts, hb, hv]

theorem readDraws_toJson (draws : List Draw) : readDraws (draws.map Draw.toJson) = .ok draws := by
  induction draws with
  | nil => rfl
  | cons d rest ih =>
    rw [List.map_cons, readDraws, Draw.ofJson_toJson]
    simp only [ih]
    rfl

theorem drawsFromDict_serializeDraws (draws : List Draw) (seed : Option Int) :
    drawsFromDict (serializeDraws draws seed) = .ok draws := by
  show readDraws (draws.map Draw.toJson) = _
  exact readDraws_toJson draws

/-- Reading a tape's own document gives the strict replay of its draws. -/
theorem Tape.loads_dumps {R : RandomSource} (t : Tape R) (policy : MisalignmentPolicy)
    (fallbackSeed : Int) :
    Tape.loads (R := R) t.dumps policy fallbackSeed =
      .ok (replay t.draws policy fallbackSeed .rng) := by
  show (drawsFromDict (serializeDraws t.draws t.seed)).map _ = _
  rw [drawsFromDict_serializeDraws]
  rfl

end Simloom
