import Mathlib.Data.List.TakeWhile
import Mathlib.Tactic.IntervalCases

/-! Tokens of a text: numerals and quoted strings.

A numeral is an integer with an optional fraction and an optional exponent. A
quoted string keeps printable ASCII as it is and writes every other character as
an escape, those beyond the basic plane as a surrogate pair. What a reader takes
off the front of a text is the token and what follows it. -/
namespace Simloom.Theory.Lexical

/-! ### Numerals -/

/-- The decimal text of an integer. -/
def integerText : Int → List Char
  | .ofNat n => Nat.toDigits 10 n
  | .negSucc n => '-' :: Nat.toDigits 10 (n + 1)

/-- The integer of its decimal text. -/
def readInteger : List Char → Int
  | [] => 0
  | c :: rest =>
    if c = '-' then -(Nat.ofDigitChars 10 rest 0 : Int) else Nat.ofDigitChars 10 (c :: rest) 0

def digits (text : List Char) : List Char := text.takeWhile Char.isDigit

def afterDigits (text : List Char) : List Char := text.dropWhile Char.isDigit

/-- `0|[1-9][0-9]*` -/
def takeNatural : List Char → Option (List Char × List Char)
  | [] => none
  | c :: rest =>
    if c = '0' then some (['0'], rest)
    else if c.isDigit then some (c :: digits rest, afterDigits rest)
    else none

/-- `-?(0|[1-9][0-9]*)` -/
def takeInteger : List Char → Option (List Char × List Char)
  | [] => none
  | c :: rest =>
    if c = '-' then (takeNatural rest).map fun r => ('-' :: r.1, r.2) else takeNatural (c :: rest)

/-- `(\.[0-9]+)?` -/
def takeFraction : List Char → List Char × List Char
  | [] => ([], [])
  | c :: rest =>
    if c = '.' ∧ digits rest ≠ [] then ('.' :: digits rest, afterDigits rest) else ([], c :: rest)

/-- `[-+]?` -/
def takeSign : List Char → List Char × List Char
  | [] => ([], [])
  | c :: rest => if c = '+' ∨ c = '-' then ([c], rest) else ([], c :: rest)

/-- `([eE][-+]?[0-9]+)?` -/
def takeExponent : List Char → List Char × List Char
  | [] => ([], [])
  | c :: rest =>
    if (c = 'e' ∨ c = 'E') ∧ digits (takeSign rest).2 ≠ [] then
      (c :: (takeSign rest).1 ++ digits (takeSign rest).2, afterDigits (takeSign rest).2)
    else ([], c :: rest)

structure Numeral where
  integer : List Char
  fraction : List Char
  exponent : List Char

namespace Numeral

def text (n : Numeral) : List Char := n.integer ++ n.fraction ++ n.exponent

/-- An integer has neither a fraction nor an exponent. -/
def isInteger (n : Numeral) : Bool := n.fraction.isEmpty && n.exponent.isEmpty

end Numeral

/-- The longest numeral at the front. -/
def takeNumeral (text : List Char) : Option (Numeral × List Char) :=
  (takeInteger text).map fun r =>
    (⟨r.1, (takeFraction r.2).1, (takeExponent (takeFraction r.2).2).1⟩,
      (takeExponent (takeFraction r.2).2).2)

/-! #### A numeral ends where its characters do -/

/-- Characters that may continue a numeral. -/
def continues (c : Char) : Bool :=
  c.isDigit || c == '+' || c == '-' || c == '.' || c == 'e' || c == 'E'

/-- No numeral runs on into this text. -/
def Stops (rest : List Char) : Prop := ∀ c ∈ rest.head?, continues c = false

theorem stops_nil : Stops [] := fun _ h => by simp at h

theorem stops_cons {c : Char} {rest : List Char} (h : continues c = false) : Stops (c :: rest) := by
  intro x hx
  rw [List.head?_cons, Option.mem_some] at hx
  exact hx ▸ h

theorem Stops.head {c : Char} {rest : List Char} (h : Stops (c :: rest)) :
    c.isDigit = false ∧ c ≠ '+' ∧ c ≠ '-' ∧ c ≠ '.' ∧ c ≠ 'e' ∧ c ≠ 'E' := by
  have hc := h c rfl
  simp only [continues, Bool.or_eq_false_iff, beq_eq_false_iff_ne] at hc
  tauto

variable {rest : List Char}

/-- No digit is at the front. -/
def NoDigit (rest : List Char) : Prop := ∀ c ∈ rest.head?, c.isDigit = false

theorem Stops.noDigit (h : Stops rest) : NoDigit rest := fun c hc => by
  obtain ⟨t, rfl⟩ := List.head?_eq_some_iff.mp hc
  exact h.head.1

theorem NoDigit.head {c : Char} {t : List Char} (h : NoDigit (c :: t)) : c.isDigit = false := h c rfl

theorem digits_append (h : NoDigit rest) (a : List Char) : digits (a ++ rest) = digits a := by
  induction a with
  | nil =>
    cases rest with
    | nil => rfl
    | cons c rest => simp [digits, h.head]
  | cons c a ih =>
    unfold digits at ih ⊢
    rw [List.cons_append, List.takeWhile_cons, List.takeWhile_cons, ih]

theorem afterDigits_append (h : NoDigit rest) (a : List Char) :
    afterDigits (a ++ rest) = afterDigits a ++ rest := by
  induction a with
  | nil =>
    cases rest with
    | nil => rfl
    | cons c rest => simp [afterDigits, h.head]
  | cons c a ih =>
    unfold afterDigits at ih ⊢
    rw [List.cons_append, List.dropWhile_cons, List.dropWhile_cons, ih]
    split <;> rfl

theorem takeNatural_append (h : NoDigit rest) (a : List Char) :
    takeNatural (a ++ rest) = (takeNatural a).map fun r => (r.1, r.2 ++ rest) := by
  cases a with
  | nil =>
    cases rest with
    | nil => rfl
    | cons c rest =>
      have hzero : c ≠ '0' := fun hc => absurd h.head (by rw [hc]; decide)
      simp [takeNatural, h.head, hzero]
  | cons c a =>
    simp only [List.cons_append, takeNatural, digits_append h, afterDigits_append h]
    split
    · rfl
    · split <;> rfl

theorem takeInteger_append (h : Stops rest) (a : List Char) :
    takeInteger (a ++ rest) = (takeInteger a).map fun r => (r.1, r.2 ++ rest) := by
  cases a with
  | nil =>
    cases rest with
    | nil => rfl
    | cons c rest =>
      have hnone := takeNatural_append h.noDigit []
      rw [List.nil_append] at hnone
      simp only [List.nil_append, takeInteger, if_neg h.head.2.2.1, hnone]
      rfl
  | cons c a =>
    have ha := takeNatural_append h.noDigit a
    have hc := takeNatural_append h.noDigit (c :: a)
    rw [List.cons_append] at hc ⊢
    simp only [takeInteger, ha, hc]
    split
    · simp only [Option.map_map]
      rfl
    · rfl

theorem takeFraction_append (h : Stops rest) (a : List Char) :
    takeFraction (a ++ rest) = ((takeFraction a).1, (takeFraction a).2 ++ rest) := by
  cases a with
  | nil =>
    cases rest with
    | nil => rfl
    | cons c rest => simp [takeFraction, h.head.2.2.2.1]
  | cons c a =>
    simp only [List.cons_append, takeFraction, digits_append h.noDigit, afterDigits_append h.noDigit]
    split <;> rfl

theorem takeSign_append (h : Stops rest) (a : List Char) :
    takeSign (a ++ rest) = ((takeSign a).1, (takeSign a).2 ++ rest) := by
  cases a with
  | nil =>
    cases rest with
    | nil => rfl
    | cons c rest => simp [takeSign, h.head.2.1, h.head.2.2.1]
  | cons c a =>
    simp only [List.cons_append, takeSign]
    split <;> rfl

theorem takeExponent_append (h : Stops rest) (a : List Char) :
    takeExponent (a ++ rest) = ((takeExponent a).1, (takeExponent a).2 ++ rest) := by
  cases a with
  | nil =>
    cases rest with
    | nil => rfl
    | cons c rest => simp [takeExponent, h.head.2.2.2.2.1, h.head.2.2.2.2.2]
  | cons c a =>
    simp only [List.cons_append, takeExponent, takeSign_append h, digits_append h.noDigit,
      afterDigits_append h.noDigit]
    split <;> rfl

/-- Text that stops a numeral leaves its reading alone. -/
theorem takeNumeral_append (h : Stops rest) (a : List Char) :
    takeNumeral (a ++ rest) = (takeNumeral a).map fun r => (r.1, r.2 ++ rest) := by
  simp only [takeNumeral, takeInteger_append h, Option.map_map]
  congr 1
  funext r
  simp [takeFraction_append h, takeExponent_append h]

/-! #### A numeral is a part of its text -/

theorem takeNatural_text {a : List Char} {r : List Char × List Char} (h : takeNatural a = some r) :
    r.1 ++ r.2 = a := by
  cases a with
  | nil => simp [takeNatural] at h
  | cons c a =>
    simp only [takeNatural] at h
    split at h
    next hc =>
      obtain rfl := Option.some.inj h
      simp [hc]
    next =>
      split at h
      next =>
        obtain rfl := Option.some.inj h
        simp [digits, afterDigits]
      next => exact absurd h (by simp)

theorem takeInteger_text {a : List Char} {r : List Char × List Char} (h : takeInteger a = some r) :
    r.1 ++ r.2 = a := by
  cases a with
  | nil => simp [takeInteger] at h
  | cons c a =>
    simp only [takeInteger] at h
    split at h
    next hc =>
      obtain ⟨r', hr, rfl⟩ := Option.map_eq_some_iff.mp h
      simp [hc, takeNatural_text hr]
    next => exact takeNatural_text h

theorem takeFraction_text (a : List Char) : (takeFraction a).1 ++ (takeFraction a).2 = a := by
  cases a with
  | nil => rfl
  | cons c a =>
    simp only [takeFraction]
    split
    next h => simp [digits, afterDigits, h.1]
    next => rfl

theorem takeSign_text (a : List Char) : (takeSign a).1 ++ (takeSign a).2 = a := by
  cases a with
  | nil => rfl
  | cons c a =>
    simp only [takeSign]
    split <;> rfl

theorem takeExponent_text (a : List Char) : (takeExponent a).1 ++ (takeExponent a).2 = a := by
  cases a with
  | nil => rfl
  | cons c a =>
    simp only [takeExponent]
    split
    next =>
      have hsplit : digits (takeSign a).2 ++ afterDigits (takeSign a).2 = (takeSign a).2 :=
        List.takeWhile_append_dropWhile
      simp [hsplit, takeSign_text]
    next => rfl

/-- What is read and what is left make up the text. -/
theorem takeNumeral_text {a : List Char} {r : Numeral × List Char} (h : takeNumeral a = some r) :
    r.1.text ++ r.2 = a := by
  obtain ⟨r', hr, rfl⟩ := Option.map_eq_some_iff.mp h
  simp [Numeral.text, takeExponent_text, takeFraction_text, takeInteger_text hr]

/-! #### Integers -/

theorem digits_toDigits {n : Nat} {c : Char} {ds : List Char} (h : Nat.toDigits 10 n = c :: ds) :
    c.isDigit = true ∧ digits ds = ds ∧ afterDigits ds = [] := by
  have hall : ∀ x ∈ c :: ds, x.isDigit = true := fun x hx =>
    Nat.isDigit_of_mem_toDigits (by decide) (by decide) (h ▸ hx)
  have hds : ∀ x ∈ ds, x.isDigit = true := fun x hx => hall x (List.mem_cons_of_mem c hx)
  exact ⟨hall c List.mem_cons_self, List.takeWhile_eq_self_iff.mpr hds,
    List.dropWhile_eq_nil_iff.mpr hds⟩

/-- Only zero is written with a leading zero. -/
theorem head_toDigits (n : Nat) (hpos : 0 < n) : (Nat.toDigits 10 n).head? ≠ some '0' := by
  induction n using Nat.strong_induction_on with
  | _ n ih =>
    by_cases hsmall : n < 10
    · rw [Nat.toDigits_of_lt_base hsmall]
      interval_cases n <;> decide
    · have hhead := ih (n / 10) (by omega) (by omega)
      obtain ⟨c, ds, htext⟩ := List.exists_cons_of_ne_nil (Nat.toDigits_ne_nil (n := n / 10) (b := 10))
      rw [Nat.toDigits_of_base_le (by decide) (by omega), htext]
      rw [htext] at hhead
      exact hhead

theorem takeNatural_toDigits (n : Nat) : takeNatural (Nat.toDigits 10 n) = some (Nat.toDigits 10 n, []) := by
  cases htext : Nat.toDigits 10 n with
  | nil => exact absurd htext Nat.toDigits_ne_nil
  | cons c ds =>
    obtain ⟨hc, hds, hafter⟩ := digits_toDigits htext
    by_cases hzero : c = '0'
    · have hn : n = 0 := by
        by_contra hne
        exact head_toDigits n (by omega) (by rw [htext, hzero]; rfl)
      subst hn
      obtain ⟨rfl, rfl⟩ : '0' = c ∧ [] = ds := List.cons.inj htext
      rfl
    · simp [takeNatural, hzero, hc, hds, hafter]

theorem takeNatural_ne_nil {a : List Char} {r : List Char × List Char} (h : takeNatural a = some r) :
    r.1 ≠ [] := by
  cases a with
  | nil => simp [takeNatural] at h
  | cons c a =>
    simp only [takeNatural] at h
    split_ifs at h <;> obtain rfl := Option.some.inj h <;> simp

theorem takeInteger_ne_nil {a : List Char} {r : List Char × List Char} (h : takeInteger a = some r) :
    r.1 ≠ [] := by
  cases a with
  | nil => simp [takeInteger] at h
  | cons c a =>
    simp only [takeInteger] at h
    split at h
    next =>
      obtain ⟨r', -, rfl⟩ := Option.map_eq_some_iff.mp h
      simp
    next => exact takeNatural_ne_nil h

theorem takeNatural_head {c : Char} {a : List Char} {r : List Char × List Char}
    (h : takeNatural (c :: a) = some r) : c.isDigit = true := by
  simp only [takeNatural] at h
  split_ifs at h with hzero hdigit
  · rw [hzero]
    decide
  · exact hdigit

/-- A numeral starts with a digit or a minus sign. -/
theorem takeNumeral_head {a : List Char} {r : Numeral × List Char} (h : takeNumeral a = some r) :
    ∃ c t, a = c :: t ∧ (c = '-' ∨ c.isDigit = true) := by
  obtain ⟨r', hr, -⟩ := Option.map_eq_some_iff.mp h
  cases a with
  | nil => simp [takeInteger] at hr
  | cons c a =>
    refine ⟨c, a, rfl, ?_⟩
    simp only [takeInteger] at hr
    split at hr
    next hsign => exact .inl hsign
    next => exact .inr (takeNatural_head hr)

theorem takeNatural_isDigit {a : List Char} {r : List Char × List Char} (h : takeNatural a = some r) :
    ∀ c ∈ r.1, c.isDigit = true := by
  cases a with
  | nil => simp [takeNatural] at h
  | cons x a =>
    have hdigits : ∀ c ∈ digits a, c.isDigit = true := fun c hc => List.mem_takeWhile_imp hc
    simp only [takeNatural] at h
    split_ifs at h with hzero hdigit <;> obtain rfl := Option.some.inj h
    · simp [Char.isDigit]
    · simpa [hdigit] using hdigits

theorem continues_of_isDigit {c : Char} (h : c.isDigit = true) : continues c = true := by
  simp [continues, h]

theorem continues_digits (t : List Char) : ∀ c ∈ digits t, continues c = true := fun _ hc =>
  continues_of_isDigit (List.mem_takeWhile_imp hc)

theorem continues_takeInteger {t : List Char} {r : List Char × List Char}
    (h : takeInteger t = some r) : ∀ c ∈ r.1, continues c = true := by
  intro c hc
  cases t with
  | nil => simp [takeInteger] at h
  | cons x t =>
    simp only [takeInteger] at h
    split at h
    next =>
      obtain ⟨r', hr, rfl⟩ := Option.map_eq_some_iff.mp h
      rcases List.mem_cons.mp hc with rfl | hc
      · decide
      · exact continues_of_isDigit (takeNatural_isDigit hr c hc)
    next => exact continues_of_isDigit (takeNatural_isDigit h c hc)

theorem continues_takeFraction (t : List Char) : ∀ c ∈ (takeFraction t).1, continues c = true := by
  intro c hc
  cases t with
  | nil => simp [takeFraction] at hc
  | cons x t =>
    simp only [takeFraction] at hc
    split at hc
    next =>
      rcases List.mem_cons.mp hc with rfl | hc
      · decide
      · exact continues_digits t c hc
    next => simp at hc

theorem continues_takeSign (t : List Char) : ∀ c ∈ (takeSign t).1, continues c = true := by
  intro c hc
  cases t with
  | nil => simp [takeSign] at hc
  | cons x t =>
    simp only [takeSign] at hc
    split at hc
    next hx =>
      rw [List.mem_singleton.mp hc]
      rcases hx with rfl | rfl <;> decide
    next => simp at hc

theorem continues_takeExponent (t : List Char) : ∀ c ∈ (takeExponent t).1, continues c = true := by
  intro c hc
  cases t with
  | nil => simp [takeExponent] at hc
  | cons x t =>
    simp only [takeExponent] at hc
    split at hc
    next hx =>
      rcases List.mem_cons.mp hc with rfl | hc
      · rcases hx.1 with rfl | rfl <;> decide
      · exact (List.mem_append.mp hc).elim (continues_takeSign t c) (continues_digits _ c)
    next => simp at hc

/-- A numeral is made of digits, signs, points and exponent letters. -/
theorem continues_numeral {a : List Char} {r : Numeral × List Char} (h : takeNumeral a = some r) :
    ∀ c ∈ r.1.text, continues c = true := by
  obtain ⟨s, hs, rfl⟩ := Option.map_eq_some_iff.mp h
  intro c hc
  rcases List.mem_append.mp hc with hc | hc
  · exact (List.mem_append.mp hc).elim (continues_takeInteger hs c) (continues_takeFraction _ c)
  · exact continues_takeExponent _ c hc

/-- A numeral takes something. -/
theorem takeNumeral_length {a : List Char} {r : Numeral × List Char} (h : takeNumeral a = some r) :
    r.2.length < a.length := by
  have htext := congrArg List.length (takeNumeral_text h)
  obtain ⟨r', hr, rfl⟩ := Option.map_eq_some_iff.mp h
  have hpos := List.length_pos_iff.mpr (takeInteger_ne_nil hr)
  simp only [Numeral.text, List.length_append] at htext
  simp only
  omega

/-- An integer's text is taken whole from in front of anything but a digit. -/
theorem takeInteger_integerText (n : Int) (h : NoDigit rest) :
    takeInteger (integerText n ++ rest) = some (integerText n, rest) := by
  have hnat : ∀ m, takeNatural (Nat.toDigits 10 m ++ rest) = some (Nat.toDigits 10 m, rest) := fun m => by
    rw [takeNatural_append h, takeNatural_toDigits]
    rfl
  cases n with
  | ofNat n =>
    have htake := hnat n
    rw [integerText]
    cases htext : Nat.toDigits 10 n with
    | nil => exact absurd htext Nat.toDigits_ne_nil
    | cons c ds =>
      have hsign : c ≠ '-' := fun hc => absurd (digits_toDigits htext).1 (by rw [hc]; decide)
      rw [htext, List.cons_append] at htake
      rw [List.cons_append, takeInteger, if_neg hsign, htake]
  | negSucc n =>
    rw [integerText, List.cons_append, takeInteger, if_pos rfl, hnat]
    rfl

theorem readInteger_integerText (n : Int) : readInteger (integerText n) = n := by
  cases n with
  | ofNat n =>
    rw [integerText]
    cases htext : Nat.toDigits 10 n with
    | nil => exact absurd htext Nat.toDigits_ne_nil
    | cons c ds =>
      have hsign : c ≠ '-' := fun hc => absurd (digits_toDigits htext).1 (by rw [hc]; decide)
      rw [readInteger, if_neg hsign, ← htext, Nat.ofDigitChars_ten_toDigits]
      rfl
  | negSucc n =>
    rw [integerText, readInteger, if_pos rfl, Nat.ofDigitChars_ten_toDigits]
    rfl

/-- An integer's text is read as one numeral, an integer. -/
theorem takeNumeral_integerText (n : Int) :
    takeNumeral (integerText n) = some (⟨integerText n, [], []⟩, []) := by
  have hnil : NoDigit [] := fun c hc => by simp at hc
  have hint := takeInteger_integerText n hnil
  rw [List.append_nil] at hint
  rw [takeNumeral, hint]
  rfl

/-- With a point and a zero behind it, an integer's text is a numeral and no integer. -/
theorem takeNumeral_point (n : Int) :
    takeNumeral (integerText n ++ ['.', '0']) = some (⟨integerText n, ['.', '0'], []⟩, []) := by
  have hpoint : NoDigit ['.', '0'] := fun c hc => by
    rw [← Option.some.inj hc]
    rfl
  rw [takeNumeral, takeInteger_integerText n hpoint]
  rfl

/-! ### Quoted strings -/

/-- Four hexadecimal digits. -/
def hex (n : Nat) : List Char :=
  [Nat.digitChar (n / 4096 % 16), Nat.digitChar (n / 256 % 16), Nat.digitChar (n / 16 % 16),
    Nat.digitChar (n % 16)]

def hexDigit (c : Char) : Option Nat :=
  if '0' ≤ c ∧ c ≤ '9' then some (c.toNat - 48)
  else if 'a' ≤ c ∧ c ≤ 'f' then some (c.toNat - 87)
  else if 'A' ≤ c ∧ c ≤ 'F' then some (c.toNat - 55)
  else none

def readHex (a b c d : Char) : Option Nat :=
  (hexDigit a).bind fun a => (hexDigit b).bind fun b => (hexDigit c).bind fun c =>
    (hexDigit d).map fun d => 4096 * a + 256 * b + 16 * c + d

/-- The letter of a character that has an escape of its own. -/
def letter (c : Char) : Option Char :=
  if c = '"' then some '"'
  else if c = '\\' then some '\\'
  else if c = '\n' then some 'n'
  else if c = '\r' then some 'r'
  else if c = '\t' then some 't'
  else if c = '\x0c' then some 'f'
  else if c = '\x08' then some 'b'
  else none

/-- The character of such a letter; a reader also takes the slash. -/
def ofLetter (c : Char) : Option Char :=
  if c = '"' then some '"'
  else if c = '\\' then some '\\'
  else if c = '/' then some '/'
  else if c = 'b' then some '\x08'
  else if c = 'f' then some '\x0c'
  else if c = 'n' then some '\n'
  else if c = 'r' then some '\r'
  else if c = 't' then some '\t'
  else none

def printable (c : Char) : Bool := 32 ≤ c.toNat && c.toNat ≤ 126

def unicode (n : Nat) : List Char := '\\' :: 'u' :: hex n

def escape (c : Char) : List Char :=
  match letter c with
  | some x => ['\\', x]
  | none =>
    if printable c then [c]
    else if c.toNat < 0x10000 then unicode c.toNat
    else unicode (0xd800 + (c.toNat - 0x10000) / 1024) ++
      unicode (0xdc00 + (c.toNat - 0x10000) % 1024)

def quote (text : List Char) : List Char := '"' :: (text.flatMap escape ++ ['"'])

def isHigh (n : Nat) : Bool := 0xd800 ≤ n && n ≤ 0xdbff

def isLow (n : Nat) : Bool := 0xdc00 ≤ n && n ≤ 0xdfff

/-- Read a string up to its closing quote. A surrogate that is not one of a pair is
no character. -/
def unquote : List Char → Option (List Char × List Char)
  | [] => none
  | c :: rest =>
    if c = '"' then some ([], rest)
    else if c = '\\' then
      match rest with
      | [] => none
      | e :: rest =>
        if e = 'u' then
          match rest with
          | a :: b :: c :: d :: rest =>
            match readHex a b c d with
            | none => none
            | some n =>
              if isHigh n then
                match rest with
                | s :: u :: a :: b :: c :: d :: rest =>
                  if s = '\\' ∧ u = 'u' then
                    match readHex a b c d with
                    | none => none
                    | some m =>
                      if isLow m then
                        (unquote rest).map fun r =>
                          (Char.ofNat (0x10000 + (n - 0xd800) * 1024 + (m - 0xdc00)) :: r.1, r.2)
                      else none
                  else none
                | _ => none
              else if isLow n then none
              else (unquote rest).map fun r => (Char.ofNat n :: r.1, r.2)
          | _ => none
        else
          match ofLetter e with
          | none => none
          | some c => (unquote rest).map fun r => (c :: r.1, r.2)
    else if c.toNat < 32 then none
    else (unquote rest).map fun r => (c :: r.1, r.2)

theorem unquote_length (text : List Char) :
    ∀ r, unquote text = some r → r.2.length < text.length := by
  fun_induction unquote text <;> simp_all <;> grind

/-! #### What is quoted is read back -/

theorem hexDigit_digitChar {d : Nat} (h : d < 16) : hexDigit (Nat.digitChar d) = some d := by
  interval_cases d <;> rfl

theorem readHex_hex {n : Nat} (h : n < 0x10000) :
    readHex (Nat.digitChar (n / 4096 % 16)) (Nat.digitChar (n / 256 % 16))
      (Nat.digitChar (n / 16 % 16)) (Nat.digitChar (n % 16)) = some n := by
  simp only [readHex, hexDigit_digitChar (Nat.mod_lt _ (by decide : 0 < 16)), Option.bind_some,
    Option.map_some, Option.some.injEq]
  omega

theorem ofLetter_letter {c x : Char} (h : letter c = some x) : ofLetter x = some c ∧ x ≠ 'u' := by
  simp only [letter] at h
  split_ifs at h with h1 h2 h3 h4 h5 h6 h7 <;> obtain rfl := Option.some.inj h <;> subst c <;>
    exact ⟨rfl, by decide⟩

theorem unquote_letter {c x : Char} (h : letter c = some x) (rest : List Char) :
    unquote ('\\' :: x :: rest) = (unquote rest).map fun r => (c :: r.1, r.2) := by
  obtain ⟨hx, hu⟩ := ofLetter_letter h
  rw [unquote.eq_def]
  simp [hu, hx]

theorem unquote_plain {c : Char} (hletter : letter c = none) (hc : 32 ≤ c.toNat) (rest : List Char) :
    unquote (c :: rest) = (unquote rest).map fun r => (c :: r.1, r.2) := by
  have hquote : c ≠ '"' := fun h => absurd hletter (by rw [h]; decide)
  have hslash : c ≠ '\\' := fun h => absurd hletter (by rw [h]; decide)
  rw [unquote.eq_def]
  simp only [if_neg hquote, if_neg hslash, if_neg (Nat.not_lt.mpr hc)]

theorem unquote_unicode {n : Nat} (hn : n < 0x10000) (hhigh : isHigh n = false)
    (hlow : isLow n = false) (rest : List Char) :
    unquote (unicode n ++ rest) = (unquote rest).map fun r => (Char.ofNat n :: r.1, r.2) := by
  rw [unicode, hex, unquote.eq_def]
  simp [readHex_hex hn, hhigh, hlow]

theorem unquote_pair {n m : Nat} (hn : isHigh n = true) (hm : isLow m = true) (rest : List Char) :
    unquote (unicode n ++ unicode m ++ rest) = (unquote rest).map fun r =>
      (Char.ofNat (0x10000 + (n - 0xd800) * 1024 + (m - 0xdc00)) :: r.1, r.2) := by
  have hn' : n < 0x10000 := by
    simp only [isHigh, Bool.and_eq_true, decide_eq_true_eq] at hn
    omega
  have hm' : m < 0x10000 := by
    simp only [isLow, Bool.and_eq_true, decide_eq_true_eq] at hm
    omega
  rw [unicode, unicode, hex, hex]
  rw [unquote.eq_def]
  simp [readHex_hex hn', readHex_hex hm', hn, hm]

/-- A character is no surrogate. -/
theorem toNat_scalar (c : Char) : isHigh c.toNat = false ∧ isLow c.toNat = false ∧
    c.toNat < 0x110000 := by
  have hvalid : c.toNat < 0xd800 ∨ 0xdfff < c.toNat ∧ c.toNat < 0x110000 := c.valid
  refine ⟨?_, ?_, by omega⟩
  · rw [isHigh, Bool.and_eq_false_iff, decide_eq_false_iff_not, decide_eq_false_iff_not]
    omega
  · rw [isLow, Bool.and_eq_false_iff, decide_eq_false_iff_not, decide_eq_false_iff_not]
    omega

theorem unquote_escape (c : Char) (rest : List Char) :
    unquote (escape c ++ rest) = (unquote rest).map fun r => (c :: r.1, r.2) := by
  obtain ⟨hhigh, hlow, hlt⟩ := toNat_scalar c
  cases hletter : letter c with
  | some x =>
    simp only [escape, hletter]
    exact unquote_letter hletter rest
  | none =>
    simp only [escape, hletter]
    split
    next hprint =>
      simp only [printable, Bool.and_eq_true, decide_eq_true_eq] at hprint
      exact unquote_plain hletter hprint.1 rest
    next =>
      split
      next hbasic => rw [unquote_unicode hbasic hhigh hlow, Char.ofNat_toNat]
      next hbeyond =>
        have hpoint : 0x10000 + (0xd800 + (c.toNat - 0x10000) / 1024 - 0xd800) * 1024 +
            (0xdc00 + (c.toNat - 0x10000) % 1024 - 0xdc00) = c.toNat := by omega
        rw [unquote_pair, hpoint, Char.ofNat_toNat]
        · simp only [isHigh, Bool.and_eq_true, decide_eq_true_eq]
          omega
        · simp only [isLow, Bool.and_eq_true, decide_eq_true_eq]
          omega

theorem unquote_escapes (text rest : List Char) :
    unquote (text.flatMap escape ++ '"' :: rest) = some (text, rest) := by
  induction text with
  | nil =>
    rw [unquote.eq_def]
    simp
  | cons c text ih =>
    rw [List.flatMap_cons, List.append_assoc, unquote_escape, ih]
    rfl

theorem printable_of_continues {c : Char} (h : continues c = true) : printable c = true := by
  simp only [continues, Bool.or_eq_true, beq_iff_eq] at h
  rcases h with ((((hdigit | rfl) | rfl) | rfl) | rfl) | rfl
  · simp only [Char.isDigit, Bool.and_eq_true, decide_eq_true_eq, ge_iff_le, UInt32.le_iff_toNat_le]
      at hdigit
    have hlow : 48 ≤ c.toNat := hdigit.1
    have hhigh : c.toNat ≤ 57 := hdigit.2
    simp only [printable, Bool.and_eq_true, decide_eq_true_eq]
    omega
  all_goals decide

/-- A quoted text has nothing but printable ASCII in it. -/
theorem printable_quote (text : List Char) : ∀ c ∈ quote text, printable c = true := by
  have hhex : ∀ d, printable (Nat.digitChar (d % 16)) = true := fun d => by
    have hd : d % 16 < 16 := Nat.mod_lt d (by decide)
    generalize d % 16 = d at hd
    interval_cases d <;> decide
  have hunicode : ∀ n, ∀ c ∈ unicode n, printable c = true := fun n c hc => by
    simp only [unicode, hex, List.mem_cons, List.not_mem_nil, or_false] at hc
    rcases hc with rfl | rfl | rfl | rfl | rfl | rfl
    · decide
    · decide
    all_goals exact hhex _
  have hescape : ∀ x, ∀ c ∈ escape x, printable c = true := fun x c hc => by
    unfold escape at hc
    split at hc
    next y hy =>
      have hyp : printable y = true := by
        simp only [letter] at hy
        split_ifs at hy <;> obtain rfl := Option.some.inj hy <;> decide
      rcases List.mem_cons.mp hc with rfl | hc
      · decide
      · exact List.mem_singleton.mp hc ▸ hyp
    next =>
      split_ifs at hc with hprint hbasic
      · exact List.mem_singleton.mp hc ▸ hprint
      · exact hunicode _ c hc
      · exact (List.mem_append.mp hc).elim (hunicode _ c) (hunicode _ c)
  intro c hc
  rcases List.mem_cons.mp hc with rfl | hc
  · decide
  · rcases List.mem_append.mp hc with hc | hc
    · obtain ⟨x, -, hx⟩ := List.mem_flatMap.mp hc
      exact hescape x c hx
    · rw [List.mem_singleton.mp hc]
      decide

end Simloom.Theory.Lexical
