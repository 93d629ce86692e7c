import Mathlib.Data.List.Count
import Mathlib.Data.List.Sort
import Mathlib.Order.Basic

/-! Deadlines served in any order.

A queue assigns times that never decrease, and sets an alarm for each. Alarms may go
off in any order once they are due, and each serves the head of the queue. If no
more alarms than queued times are due up to any later time (`Covers`), whatever an
alarm serves was due when it went off. -/
namespace Simloom.Theory
variable {α : Type} [LinearOrder α]

/-- From `now` on, at most as many alarms are due as queued times. -/
def Covers (now : α) (alarms queued : List α) : Prop :=
  ∀ x, now ≤ x → alarms.countP (· ≤ x) ≤ queued.countP (· ≤ x)

namespace Covers
variable {now : α} {alarms queued : List α}

theorem nil (now : α) (queued : List α) : Covers now [] queued := fun _ _ => Nat.zero_le _

theorem later (h : Covers now alarms queued) {t : α} (ht : now ≤ t) : Covers t alarms queued :=
  fun x hx => h x (le_trans ht hx)

/-- New times and their alarms. -/
theorem assign (h : Covers now alarms queued) (times : List α) :
    Covers now (alarms ++ times) (queued ++ times) := by
  intro x hx
  rw [List.countP_append, List.countP_append]
  exact Nat.add_le_add_right (h x hx) _

/-- An alarm that serves nothing. -/
theorem skip (h : Covers now alarms queued) (a : α) : Covers now (alarms.erase a) queued :=
  fun x hx => le_trans (List.erase_sublist.countP_le) (h x hx)

/-- What a due alarm serves is due. -/
theorem head_due (h : Covers now alarms queued) (hs : queued.Pairwise (· ≤ ·)) {a : α}
    (ha : a ∈ alarms) (hdue : a ≤ now) : ∃ q rest, queued = q :: rest ∧ q ≤ now := by
  have hpos : 0 < queued.countP (· ≤ now) :=
    lt_of_lt_of_le (List.countP_pos_iff.mpr ⟨a, ha, by simpa using hdue⟩) (h now le_rfl)
  obtain ⟨b, hb, hbn⟩ := List.countP_pos_iff.mp hpos
  cases queued with
  | nil => cases hb
  | cons q rest =>
    refine ⟨q, rest, rfl, ?_⟩
    have hb' : b ≤ now := by simpa using hbn
    rcases List.mem_cons.mp hb with rfl | hb
    · exact hb'
    · exact le_trans (List.rel_of_pairwise_cons hs hb) hb'

/-- A due alarm serves the head. -/
theorem serve {q : α} {rest : List α} (h : Covers now alarms (q :: rest)) {a : α}
    (ha : a ∈ alarms) (hdue : a ≤ now) (hq : q ≤ now) : Covers now (alarms.erase a) rest := by
  intro x hx
  have hall := h x hx
  have hax : a ≤ x := le_trans hdue hx
  have hqx : q ≤ x := le_trans hq hx
  rw [(List.perm_cons_erase ha).countP_eq] at hall
  simpa [List.countP_cons, hax, hqx] using hall

end Covers

/-! ### Alarms among other timers -/

section Picked
variable {σ τ : Type} [BEq σ] [LawfulBEq σ] {f : σ → Option τ} {x : σ}

/-- What is not picked can be removed unseen. -/
theorem filterMap_erase_none (hx : f x = none) (l : List σ) :
    (l.erase x).filterMap f = l.filterMap f := by
  induction l with
  | nil => rfl
  | cons a l ih =>
    by_cases ha : a = x
    · subst ha
      rw [List.erase_cons_head, List.filterMap_cons_none hx]
    · rw [List.erase_cons_tail (by simpa using ha)]
      simp only [List.filterMap_cons, ih]

variable [BEq τ] [LawfulBEq τ]

/-- What is picked once is removed from what is picked. -/
theorem filterMap_erase_some {y : τ} (hx : f x = some y) (hf : ∀ a, f a = some y → a = x)
    (l : List σ) : (l.erase x).filterMap f = (l.filterMap f).erase y := by
  induction l with
  | nil => rfl
  | cons a l ih =>
    by_cases ha : a = x
    · subst ha
      rw [List.erase_cons_head, List.filterMap_cons_some hx, List.erase_cons_head]
    · rw [List.erase_cons_tail (by simpa using ha)]
      cases hfa : f a with
      | none => rw [List.filterMap_cons_none hfa, List.filterMap_cons_none hfa, ih]
      | some b =>
        have hb : b ≠ y := by
          rintro rfl
          exact ha (hf a hfa)
        rw [List.filterMap_cons_some hfa, List.filterMap_cons_some hfa, ih,
          List.erase_cons_tail (by simpa using hb)]

end Picked

end Simloom.Theory
