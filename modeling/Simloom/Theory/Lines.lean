import Mathlib.Data.List.Basic

/-! Text as lines.

Lines that hold no break are written one behind another, each ended by a line feed,
and are found again by splitting at the breaks, whatever else counts as one. -/
namespace Simloom.Theory.Lines

/-- Each line and its line feed. -/
def unlines (lines : List (List Char)) : List Char := lines.flatMap fun line => line ++ ['\n']

/-- Joining with line feeds and ending with one. -/
theorem intercalate_eq (line : List Char) (lines : List (List Char)) :
    ['\n'].intercalate (line :: lines) ++ ['\n'] = unlines (line :: lines) := by
  induction lines generalizing line with
  | nil => simp [unlines]
  | cons next rest ih =>
    have h := ih next
    simp only [unlines, List.flatMap_cons, List.intercalate_cons_cons, List.append_assoc] at h ⊢
    rw [h]

variable (isBreak : Char → Bool)

/-- Split at the breaks, where a line feed right behind a carriage return is part of
the same break. -/
def splitFrom (behindReturn : Bool) : List Char → List (List Char)
  | [] => []
  | c :: rest =>
    if behindReturn && c == '\n' then splitFrom false rest
    else if c = '\r' then [] :: splitFrom true rest
    else if isBreak c then [] :: splitFrom false rest
    else
      match splitFrom false rest with
      | [] => [[c]]
      | line :: lines => (c :: line) :: lines

/-- Split at the breaks. A text that ends with one has no empty line behind it. -/
def split (text : List Char) : List (List Char) := splitFrom isBreak false text

/-- A line without a break. -/
def Unbroken (line : List Char) : Prop := ∀ c ∈ line, isBreak c = false ∧ c ≠ '\r'

variable {isBreak}

theorem split_line (hfeed : isBreak '\n' = true) {line : List Char} (h : Unbroken isBreak line)
    (rest : List Char) : split isBreak (line ++ '\n' :: rest) = line :: split isBreak rest := by
  unfold split
  induction line with
  | nil => simp [splitFrom, hfeed]
  | cons c line ih =>
    obtain ⟨hbreak, hreturn⟩ := h c List.mem_cons_self
    simp [splitFrom, hbreak, hreturn, ih fun x hx => h x (List.mem_cons_of_mem c hx)]

/-- What was written as lines is found again. -/
theorem split_unlines (hfeed : isBreak '\n' = true) {lines : List (List Char)}
    (h : ∀ line ∈ lines, Unbroken isBreak line) : split isBreak (unlines lines) = lines := by
  induction lines with
  | nil => rfl
  | cons line rest ih =>
    have hrest := ih fun x hx => h x (List.mem_cons_of_mem line hx)
    have hline := split_line hfeed (h line List.mem_cons_self) (unlines rest)
    rw [hrest] at hline
    simpa [unlines] using hline

/-- The text of lines determines them. -/
theorem unlines_inj (hfeed : isBreak '\n' = true) {a b : List (List Char)}
    (ha : ∀ line ∈ a, Unbroken isBreak line) (hb : ∀ line ∈ b, Unbroken isBreak line) :
    unlines a = unlines b ↔ a = b := by
  constructor
  · intro h
    have hsplit := split_unlines hfeed ha
    rw [h, split_unlines hfeed hb] at hsplit
    exact hsplit.symm
  · intro h
    rw [h]

end Simloom.Theory.Lines
