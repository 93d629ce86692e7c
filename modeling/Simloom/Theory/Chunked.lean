import Mathlib.Data.List.Basic

/-! Reading a stream that comes in chunks.

A reader holds what has arrived and waits for another chunk only when that is not enough; a chunk
that comes earlier counts as part of the one before. What it reads depends on the stream, not on how
it is cut into chunks. -/
namespace Simloom.Theory.Chunked
variable {α : Type}

/-- What has arrived, and the chunks that are still to come; then the stream ends. -/
structure Reader (α : Type) where
  buffer : List α
  coming : List (List α)

/-- Up to the first element that ends a line, and the rest. -/
def cut (ends : α → Bool) : List α → Option (List α × List α)
  | [] => none
  | a :: rest =>
    if ends a then some ([a], rest) else (cut ends rest).map fun p => (a :: p.1, p.2)

/-- Wait until a line has arrived; without an end, the line is what there is. -/
def waitLine (ends : α → Bool) (buffer : List α) : List (List α) → List α × Reader α
  | [] =>
    match cut ends buffer with
    | some (line, rest) => (line, ⟨rest, []⟩)
    | none => (buffer, ⟨[], []⟩)
  | chunk :: coming =>
    match cut ends buffer with
    | some (line, rest) => (line, ⟨rest, chunk :: coming⟩)
    | none => waitLine ends (buffer ++ chunk) coming

/-- Wait until enough has arrived; `none` if the stream ends before that. -/
def waitExactly (n : Nat) (buffer : List α) : List (List α) → Option (List α × Reader α)
  | [] => if n ≤ buffer.length then some (buffer.take n, ⟨buffer.drop n, []⟩) else none
  | chunk :: coming =>
    if n ≤ buffer.length then some (buffer.take n, ⟨buffer.drop n, chunk :: coming⟩)
    else waitExactly n (buffer ++ chunk) coming

namespace Reader

def stream (r : Reader α) : List α := r.buffer ++ r.coming.flatten

def line (ends : α → Bool) (r : Reader α) : List α × Reader α := waitLine ends r.buffer r.coming

def exactly (n : Nat) (r : Reader α) : Option (List α × Reader α) := waitExactly n r.buffer r.coming

end Reader

variable {ends : α → Bool}

/-! ### Lines -/

theorem cut_of_end {line rest : List α} {a : α} (hline : ∀ x ∈ line, ends x = false)
    (ha : ends a = true) : cut ends (line ++ a :: rest) = some (line ++ [a], rest) := by
  induction line with
  | nil => simp [cut, ha]
  | cons x line ih =>
    rw [List.cons_append, cut, hline x List.mem_cons_self,
      ih fun y hy => hline y (List.mem_cons_of_mem x hy)]
    rfl

theorem cut_of_none {l : List α} (h : ∀ x ∈ l, ends x = false) : cut ends l = none := by
  induction l with
  | nil => rfl
  | cons x rest ih =>
    rw [cut, h x List.mem_cons_self, ih fun y hy => h y (List.mem_cons_of_mem x hy)]
    rfl

/-- A line that has arrived is the line of the whole stream. -/
theorem cut_append {l line rest : List α} (h : cut ends l = some (line, rest)) (more : List α) :
    cut ends (l ++ more) = some (line, rest ++ more) := by
  induction l generalizing line with
  | nil => cases h
  | cons a l ih =>
    rw [List.cons_append]
    unfold cut at h ⊢
    split at h
    next ha =>
      obtain ⟨rfl, rfl⟩ := Prod.mk.inj (Option.some.inj h)
      rw [if_pos ha]
    next ha =>
      obtain ⟨⟨before, after⟩, hcut, heq⟩ := Option.map_eq_some_iff.mp h
      obtain ⟨rfl, rfl⟩ := Prod.mk.inj heq
      rw [if_neg ha, ih hcut]
      rfl

theorem waitLine_of_cut {buffer line rest : List α} {coming : List (List α)}
    (h : cut ends (buffer ++ coming.flatten) = some (line, rest)) :
    ∃ r, waitLine ends buffer coming = (line, r) ∧ r.stream = rest := by
  induction coming generalizing buffer with
  | nil =>
    rw [List.flatten_nil, List.append_nil] at h
    exact ⟨⟨rest, []⟩, by rw [waitLine, h], List.append_nil _⟩
  | cons chunk coming ih =>
    unfold waitLine
    cases hcut : cut ends buffer with
    | none =>
      rw [List.flatten_cons, ← List.append_assoc] at h
      exact ih h
    | some p =>
      obtain ⟨rfl, rfl⟩ := Prod.mk.inj (Option.some.inj ((cut_append hcut _).symm.trans h))
      exact ⟨⟨p.2, chunk :: coming⟩, rfl, rfl⟩

theorem waitLine_of_none {buffer : List α} {coming : List (List α)}
    (h : ∀ x ∈ buffer ++ coming.flatten, ends x = false) :
    ∃ r, waitLine ends buffer coming = (buffer ++ coming.flatten, r) ∧ r.stream = [] := by
  induction coming generalizing buffer with
  | nil =>
    rw [List.flatten_nil, List.append_nil] at h ⊢
    exact ⟨⟨[], []⟩, by rw [waitLine, cut_of_none h], rfl⟩
  | cons chunk coming ih =>
    have hbuffer := cut_of_none fun x hx => h x (List.mem_append_left _ hx)
    rw [List.flatten_cons, ← List.append_assoc] at h ⊢
    rw [waitLine, hbuffer]
    exact ih h

/-- A line of the stream, its end included. -/
theorem Reader.line_of_end {r : Reader α} {line rest : List α} {a : α}
    (hr : r.stream = line ++ a :: rest) (hline : ∀ x ∈ line, ends x = false) (ha : ends a = true) :
    ∃ r', r.line ends = (line ++ [a], r') ∧ r'.stream = rest :=
  waitLine_of_cut (by rw [← cut_of_end hline ha, ← hr]; rfl)

/-- The last line of a stream. -/
theorem Reader.line_of_none (ends : α → Bool) (r : Reader α) (h : ∀ x ∈ r.stream, ends x = false) :
    ∃ r', r.line ends = (r.stream, r') ∧ r'.stream = [] :=
  waitLine_of_none h

/-! ### Exact lengths -/

theorem waitExactly_of_append {data rest buffer : List α} {coming : List (List α)}
    (h : buffer ++ coming.flatten = data ++ rest) :
    ∃ r, waitExactly data.length buffer coming = some (data, r) ∧ r.stream = rest := by
  induction coming generalizing buffer with
  | nil =>
    rw [List.flatten_nil, List.append_nil] at h
    subst h
    refine ⟨⟨rest, []⟩, ?_, List.append_nil _⟩
    rw [waitExactly, if_pos (by simp), List.take_left, List.drop_left]
  | cons chunk coming ih =>
    unfold waitExactly
    split
    next hle =>
      obtain ⟨more, rfl, hrest⟩ : ∃ more, buffer = data ++ more ∧ rest = more ++ _ := by
        rcases List.append_eq_append_iff.mp h with ⟨a, hdata, hrest⟩ | ⟨a, hbuffer, hrest⟩
        · obtain rfl : a = [] := List.length_eq_zero_iff.mp (by
            rw [hdata, List.length_append] at hle
            omega)
          exact ⟨[], by rw [hdata, List.append_nil, List.append_nil], hrest.symm⟩
        · exact ⟨a, hbuffer, hrest⟩
      rw [List.take_left, List.drop_left]
      exact ⟨_, rfl, hrest.symm⟩
    next =>
      rw [List.flatten_cons, ← List.append_assoc] at h
      exact ih h

theorem waitExactly_of_lt {n : Nat} {buffer : List α} {coming : List (List α)}
    (h : (buffer ++ coming.flatten).length < n) : waitExactly n buffer coming = none := by
  induction coming generalizing buffer with
  | nil =>
    rw [List.flatten_nil, List.append_nil] at h
    rw [waitExactly, if_neg (Nat.not_le.mpr h)]
  | cons chunk coming ih =>
    rw [List.flatten_cons, ← List.append_assoc] at h
    have hle : ¬ n ≤ buffer.length := by
      simp only [List.length_append] at h
      omega
    rw [waitExactly, if_neg hle]
    exact ih h

theorem Reader.exactly_of_append {r : Reader α} {data rest : List α} (h : r.stream = data ++ rest) :
    ∃ r', r.exactly data.length = some (data, r') ∧ r'.stream = rest :=
  waitExactly_of_append h

/-- The stream ends too early. -/
theorem Reader.exactly_of_lt {r : Reader α} {n : Nat} (h : r.stream.length < n) :
    r.exactly n = none :=
  waitExactly_of_lt h

end Simloom.Theory.Chunked
