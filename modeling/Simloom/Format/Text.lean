import Simloom.Tape.Document
import Simloom.Theory.Lexical
import Mathlib.Data.List.Sort

/-! JSON text as `json.dumps` writes it.

Text is ASCII throughout: `ensure_ascii` is on wherever the package writes a file.
The event log and the tape are written compactly with sorted keys, the artifacts
with `indent=1`, the checkpoints with the default separators. Floats are finite, strings
hold no lone surrogates, and Python's limit of 4300 digits between `int` and text is taken
as off. -/
namespace Simloom
open Theory.Lexical

/-- How floats are written and read: `float.__repr__` and `float`. Only some
rationals are floats, and the text of one reads back as itself and as no integer. -/
structure FloatText where
  isFloat : Rat → Prop
  repr : Rat → List Char
  read : List Char → Rat
  numeral : ∀ x, isFloat x → ∃ n, takeNumeral (repr x) = some (n, []) ∧ n.isInteger = false
  read_repr : ∀ x, isFloat x → read (repr x) = x

/-- The whole numbers that floats write without an exponent. -/
def FloatText.whole : FloatText where
  isFloat x := (x.num : Rat) = x ∧ x.num.natAbs < 10 ^ 16
  repr x := integerText x.num ++ ['.', '0']
  read text := (takeInteger text).elim 0 fun r => readInteger r.1
  numeral x _ := ⟨_, takeNumeral_point x.num, rfl⟩
  read_repr x hx := by
    have hpoint : NoDigit ['.', '0'] := fun c hc => by
      rw [← Option.some.inj hc]
      rfl
    rw [takeInteger_integerText x.num hpoint, Option.elim_some, readInteger_integerText]
    exact hx.1

/-- `indent`, and the blanks behind the comma and the colon. -/
structure Layout where
  indent : Option Nat
  afterComma : Nat
  afterColon : Nat

namespace Layout

/-- `separators=(",", ":")`. -/
def compact : Layout := ⟨none, 0, 0⟩

/-- `(", ", ": ")`. -/
def default : Layout := ⟨none, 1, 1⟩

/-- `indent=1`, which drops the blank behind the comma. -/
def indented : Layout := ⟨some 1, 0, 1⟩

variable (l : Layout) (level : Nat)

/-- The new line before an item or a closing bracket at this level. -/
def newline : List Char :=
  match l.indent with
  | none => []
  | some width => '\n' :: List.replicate (width * level) ' '

def separator : List Char := ',' :: (List.replicate l.afterComma ' ' ++ l.newline level)

def colon : List Char := ':' :: List.replicate l.afterColon ' '

end Layout

namespace Json
variable (F : FloatText) (l : Layout)

mutual

/-- `json.dumps(value)` at a level of nesting. -/
def write (level : Nat) : Json → List Char
  | .null => ['n', 'u', 'l', 'l']
  | .bool b => if b then ['t', 'r', 'u', 'e'] else ['f', 'a', 'l', 's', 'e']
  | .int n => integerText n
  | .float x => F.repr x
  | .str s => quote s.toList
  | .arr [] => ['[', ']']
  | .arr (v :: rest) =>
    '[' :: (l.newline (level + 1) ++ write (level + 1) v ++ writeItems (level + 1) rest ++
      l.newline level ++ [']'])
  | .obj [] => ['{', '}']
  | .obj ((key, v) :: rest) =>
    '{' :: (l.newline (level + 1) ++ quote key.toList ++ l.colon ++ write (level + 1) v ++
      writeFields (level + 1) rest ++ l.newline level ++ ['}'])

/-- Further items, each behind a separator. -/
def writeItems (level : Nat) : List Json → List Char
  | [] => []
  | v :: rest => l.separator level ++ write level v ++ writeItems level rest

/-- Further members, each behind a separator. -/
def writeFields (level : Nat) : List (String × Json) → List Char
  | [] => []
  | (key, v) :: rest =>
    l.separator level ++ quote key.toList ++ l.colon ++ write level v ++ writeFields level rest

end

/-- `a <= b` on the keys of `dict.items()`. -/
def keyLe (a b : String × Json) : Bool := decide (a.1 ≤ b.1)

mutual

/-- The value with the members of every object in the order of their keys, as
`sort_keys=True` visits them. -/
def sortKeys : Json → Json
  | .null => .null
  | .bool b => .bool b
  | .int n => .int n
  | .float x => .float x
  | .str s => .str s
  | .arr items => .arr (sortItems items)
  | .obj fields => .obj ((sortFields fields).mergeSort keyLe)

def sortItems : List Json → List Json
  | [] => []
  | v :: rest => sortKeys v :: sortItems rest

def sortFields : List (String × Json) → List (String × Json)
  | [] => []
  | (key, v) :: rest => (key, sortKeys v) :: sortFields rest

end

mutual

/-- The floats are floats, and an object has no key twice. -/
def Proper : Json → Prop
  | .null => True
  | .bool _ => True
  | .int _ => True
  | .float x => F.isFloat x
  | .str _ => True
  | .arr items => ProperItems items
  | .obj fields => (fields.map Prod.fst).Nodup ∧ ProperFields fields

def ProperItems : List Json → Prop
  | [] => True
  | v :: rest => Proper v ∧ ProperItems rest

def ProperFields : List (String × Json) → Prop
  | [] => True
  | (_, v) :: rest => Proper v ∧ ProperFields rest

end

/-- `json.dumps(value, sort_keys=True, separators=(",", ":"))`. -/
def canonical (v : Json) : List Char := write F .compact 0 v.sortKeys

/-! ### Text without line breaks -/

variable {F} {l}

theorem printable_numeral {a : List Char} {n : Numeral} (h : takeNumeral a = some (n, [])) :
    ∀ c ∈ a, printable c = true := by
  have htext : n.text = a := by simpa using takeNumeral_text h
  exact fun c hc => printable_of_continues (continues_numeral h c (htext ▸ hc))

theorem printable_separator (hl : l.indent = none) (level : Nat) :
    ∀ c ∈ l.separator level, printable c = true := by
  simp only [Layout.separator, Layout.newline, hl, List.append_nil, List.mem_cons]
  rintro c (rfl | hc)
  · decide
  · rw [List.eq_of_mem_replicate hc]
    decide

theorem printable_colon (l : Layout) : ∀ c ∈ l.colon, printable c = true := by
  simp only [Layout.colon, List.mem_cons]
  rintro c (rfl | hc)
  · decide
  · rw [List.eq_of_mem_replicate hc]
    decide

mutual

/-- On one line, the text of a value has nothing but printable ASCII in it. -/
theorem printable_write (hl : l.indent = none) : ∀ (v : Json) (level : Nat), v.Proper F →
    ∀ c ∈ write F l level v, printable c = true
  | .null, _, _, c, hc => by
    simp only [write, List.mem_cons, List.not_mem_nil, or_false] at hc
    rcases hc with rfl | rfl | rfl | rfl <;> decide
  | .bool b, _, _, c, hc => by
    cases b <;> simp only [write, Bool.false_eq_true, if_true, if_false, List.mem_cons,
      List.not_mem_nil, or_false] at hc
    · rcases hc with rfl | rfl | rfl | rfl | rfl <;> decide
    · rcases hc with rfl | rfl | rfl | rfl <;> decide
  | .int n, _, _, c, hc => printable_numeral (takeNumeral_integerText n) c hc
  | .float x, _, hx, c, hc => by
    obtain ⟨n, hn, -⟩ := F.numeral x hx
    exact printable_numeral hn c hc
  | .str s, _, _, c, hc => printable_quote s.toList c hc
  | .arr [], _, _, c, hc => by
    simp only [write, List.mem_cons, List.not_mem_nil, or_false] at hc
    rcases hc with rfl | rfl <;> decide
  | .arr (v :: rest), level, hproper, c, hc => by
    have hv := printable_write hl v (level + 1) hproper.1 c
    have hrest := printable_writeItems hl rest (level + 1) hproper.2 c
    simp only [write, Layout.newline, hl, List.nil_append, List.append_nil, List.mem_cons,
      List.mem_append, List.not_mem_nil, or_false] at hc
    rcases hc with rfl | (hc | hc) | rfl
    · decide
    · exact hv hc
    · exact hrest hc
    · decide
  | .obj [], _, _, c, hc => by
    simp only [write, List.mem_cons, List.not_mem_nil, or_false] at hc
    rcases hc with rfl | rfl <;> decide
  | .obj ((key, v) :: rest), level, hproper, c, hc => by
    have hv := printable_write hl v (level + 1) hproper.2.1 c
    have hrest := printable_writeFields hl rest (level + 1) hproper.2.2 c
    simp only [write, Layout.newline, hl, List.nil_append, List.append_nil, List.mem_cons,
      List.mem_append, List.not_mem_nil, or_false] at hc
    rcases hc with rfl | (((hc | hc) | hc) | hc) | rfl
    · decide
    · exact printable_quote key.toList c hc
    · exact printable_colon l c hc
    · exact hv hc
    · exact hrest hc
    · decide

theorem printable_writeItems (hl : l.indent = none) : ∀ (items : List Json) (level : Nat),
    ProperItems F items → ∀ c ∈ writeItems F l level items, printable c = true
  | [], _, _, c, hc => by simp [writeItems] at hc
  | v :: rest, level, hproper, c, hc => by
    simp only [writeItems, List.mem_append] at hc
    rcases hc with (hc | hc) | hc
    · exact printable_separator hl level c hc
    · exact printable_write hl v level hproper.1 c hc
    · exact printable_writeItems hl rest level hproper.2 c hc

theorem printable_writeFields (hl : l.indent = none) : ∀ (fields : List (String × Json)) (level : Nat),
    ProperFields F fields → ∀ c ∈ writeFields F l level fields, printable c = true
  | [], _, _, c, hc => by simp [writeFields] at hc
  | (key, v) :: rest, level, hproper, c, hc => by
    simp only [writeFields, List.mem_append] at hc
    rcases hc with (((hc | hc) | hc) | hc) | hc
    · exact printable_separator hl level c hc
    · exact printable_quote key.toList c hc
    · exact printable_colon l c hc
    · exact printable_write hl v level hproper.1 c hc
    · exact printable_writeFields hl rest level hproper.2 c hc

end

end Json
end Simloom
