import Mathlib.Data.Finset.Card
import Mathlib.Algebra.GroupWithZero.Nat
import Mathlib.Algebra.Order.BigOperators.Group.List

/-! Keeping what is new.

Items come one after the other, each with a finite set of features. A collector keeps those
that have features no earlier item had, with their number. `Exact` is its invariant: the
numbers add up to what was seen, and the items that were kept, collected again, give the
same. -/
namespace Simloom.Theory.Novelty
variable {α β : Type}

structure Collector (α β : Type) where
  seen : Finset β
  kept : List (α × Nat)

def empty : Collector α β := ⟨∅, []⟩

variable [DecidableEq β] (features : α → Finset β)

/-- How many features are new. -/
def gain (c : Collector α β) (x : α) : Nat := (features x \ c.seen).card

def step (c : Collector α β) (x : α) : Collector α β :=
  if gain features c x = 0 then c
  else ⟨c.seen ∪ (features x \ c.seen), c.kept ++ [(x, gain features c x)]⟩

def collect (c : Collector α β) (xs : List α) : Collector α β := xs.foldl (step features) c

variable {features} {c : Collector α β} {xs : List α}

structure Exact (features : α → Finset β) (c : Collector α β) : Prop where
  total : (c.kept.map Prod.snd).sum = c.seen.card
  positive : ∀ k ∈ c.kept, 0 < k.2
  again : collect features empty (c.kept.map Prod.fst) = c

theorem Exact.step (h : Exact features c) (x : α) : Exact features (step features c x) := by
  by_cases hnone : gain features c x = 0
  · rw [Novelty.step, if_pos hnone]
    exact h
  · have hstep : Novelty.step features c x =
        ⟨c.seen ∪ (features x \ c.seen), c.kept ++ [(x, gain features c x)]⟩ := if_neg hnone
    have htotal := h.total
    have hagain := h.again
    constructor
    · rw [hstep, Finset.card_union_of_disjoint Finset.disjoint_sdiff, List.map_append, List.sum_append,
        htotal]
      rfl
    · intro k hk
      rw [hstep] at hk
      rcases List.mem_append.mp hk with hold | hnew
      · exact h.positive k hold
      · rw [List.mem_singleton.mp hnew]
        exact Nat.pos_of_ne_zero hnone
    · have hkept : (Novelty.step features c x).kept.map Prod.fst = c.kept.map Prod.fst ++ [x] := by
        rw [hstep, List.map_append]
        rfl
      unfold collect at hagain ⊢
      rw [hkept, List.foldl_append, hagain]
      rfl

theorem Exact.collect (h : Exact features c) (xs : List α) : Exact features (collect features c xs) := by
  induction xs generalizing c with
  | nil => exact h
  | cons x rest ih => exact ih (h.step x)

/-- There is a feature for every item that was kept. -/
theorem Exact.length_le (h : Exact features c) : c.kept.length ≤ c.seen.card := by
  have hsum := List.length_le_sum_of_one_le (c.kept.map Prod.snd) (by
    intro n hn
    obtain ⟨k, hk, rfl⟩ := List.mem_map.mp hn
    exact h.positive k hk)
  rwa [List.length_map, h.total] at hsum

end Simloom.Theory.Novelty
