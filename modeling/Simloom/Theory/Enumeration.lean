import Mathlib.Data.List.Basic

/-! Enumeration by a successor function.

`Walks next xs` says that following the partial function `next` from the head of
`xs` visits exactly `xs`, in order, and then stops. Walks compose: the image of a
walk under a map that commutes with the successors can be continued where the
original one stops. `visit` follows a successor function for a bounded number of
elements; on a walk it visits a prefix and knows whether it saw the end. -/
namespace Simloom.Theory
variable {α β : Type}

inductive Walks (next : α → Option α) : List α → Prop where
  | last {a : α} : next a = none → Walks next [a]
  | step {a b : α} {l : List α} : next a = some b → Walks next (b :: l) → Walks next (a :: b :: l)

/-- The image of a walk, when the image of its last element is a stop. -/
theorem Walks.map {next : α → Option α} {next' : β → Option β} {f : α → β} {l : List α}
    (h : Walks next l)
    (some_step : ∀ a ∈ l, ∀ b, next a = some b → next' (f a) = some (f b))
    (none_stop : ∀ a ∈ l, next a = none → next' (f a) = none) : Walks next' (l.map f) := by
  induction h with
  | last ha => exact .last (none_stop _ (List.mem_singleton.mpr rfl) ha)
  | step ha _ ih =>
    exact .step (some_step _ (List.mem_cons_self ..) _ ha)
      (ih (fun a hl => some_step a (List.mem_cons_of_mem _ hl))
        (fun a hl => none_stop a (List.mem_cons_of_mem _ hl)))

/-- The image of a walk continued by another: where the first stops, the image
steps to the head of the second. -/
theorem Walks.map_append {next : α → Option α} {next' : β → Option β} {f : α → β} {l : List α}
    {b : β} {rest : List β} (h : Walks next l)
    (some_step : ∀ a ∈ l, ∀ c, next a = some c → next' (f a) = some (f c))
    (none_step : ∀ a ∈ l, next a = none → next' (f a) = some b) (hr : Walks next' (b :: rest)) :
    Walks next' (l.map f ++ b :: rest) := by
  induction h with
  | last ha => exact .step (none_step _ (List.mem_singleton.mpr rfl) ha) hr
  | step ha _ ih =>
    exact .step (some_step _ (List.mem_cons_self ..) _ ha)
      (ih (fun a hl => some_step a (List.mem_cons_of_mem _ hl))
        (fun a hl => none_step a (List.mem_cons_of_mem _ hl)))

/-- Follow `next` from `a` for at most `n` elements; the flag says that it stopped. -/
def visit (next : α → Option α) : Nat → α → List α × Bool
  | 0, _ => ([], false)
  | n + 1, a =>
    match next a with
    | none => ([a], true)
    | some b => (a :: (visit next n b).1, (visit next n b).2)

/-- On a walk a bounded visit sees a prefix, and the end exactly when it fits. -/
theorem Walks.visit {next : α → Option α} {a : α} {l : List α} (h : Walks next (a :: l)) (n : Nat) :
    (Theory.visit next n a).1 = (a :: l).take n ∧
      ((Theory.visit next n a).2 = true ↔ (a :: l).length ≤ n) := by
  induction n generalizing a l with
  | zero => simp [Theory.visit]
  | succ n ih =>
    cases h with
    | last ha => simp [Theory.visit, ha]
    | step ha hr =>
      obtain ⟨hv, he⟩ := ih hr
      simp only [Theory.visit, ha, hv, he, List.take_succ_cons, List.length_cons,
        Nat.add_le_add_iff_right, and_self]

end Simloom.Theory
