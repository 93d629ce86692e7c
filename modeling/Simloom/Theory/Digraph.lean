import Mathlib.Data.List.Chain
import Mathlib.Data.List.Rotate
import Mathlib.Data.List.Sort
import Mathlib.Logic.Relation
import Mathlib.Order.Extension.Linear

/-! Directed graphs: cycles, acyclicity, topological orders. -/
namespace Simloom.Theory
open Relation
variable {α : Type}

/-- No node reaches itself by one edge or more. -/
def Acyclic (r : α → α → Prop) : Prop := ∀ a, ¬ TransGen r a a

/-- The nodes of a closed walk, each with an edge to the next and the last to the first. -/
def IsCycle (r : α → α → Prop) (c : List α) : Prop :=
  ∃ a l, c = a :: l ∧ (c ++ [a]).IsChain r

theorem transGen_of_isChain {r : α → α → Prop} {a b : α} {l : List α}
    (h : (a :: l ++ [b]).IsChain r) : TransGen r a b := by
  induction l generalizing a with
  | nil => exact .single (List.isChain_cons_cons.mp h).1
  | cons x l ih =>
    obtain ⟨hx, hl⟩ := List.isChain_cons_cons.mp h
    exact .head hx (ih hl)

theorem edge_of_isChain {r : α → α → Prop} {a : α} {l : List α} (h : (a :: l).IsChain r) :
    ∀ p ∈ (a :: l).zip l, r p.1 p.2 := by
  induction l generalizing a with
  | nil =>
    intro p hp
    cases hp
  | cons x l ih =>
    obtain ⟨hx, hl⟩ := List.isChain_cons_cons.mp h
    intro p hp
    rw [List.zip_cons_cons, List.mem_cons] at hp
    rcases hp with rfl | hp
    · exact hx
    · exact ih hl p hp

/-- A cycle has an edge from each node to the next, around the end too. -/
theorem IsCycle.edge {r : α → α → Prop} {c : List α} (h : IsCycle r c) :
    ∀ p ∈ c.zip (c.rotate 1), r p.1 p.2 := by
  obtain ⟨a, l, rfl, hc⟩ := h
  intro p hp
  rw [List.rotate_cons_succ, List.rotate_zero] at hp
  refine edge_of_isChain hc p ?_
  have hlen : (a :: l).length = (l ++ [a]).length := by simp
  have hzip : ((a :: l) ++ [a]).zip ((l ++ [a]) ++ []) = (a :: l).zip (l ++ [a]) ++ [a].zip [] :=
    List.zip_append hlen
  rw [List.append_nil] at hzip
  show p ∈ (a :: l ++ [a]).zip (l ++ [a])
  rw [hzip]
  exact List.mem_append_left _ hp

theorem IsCycle.not_acyclic {r : α → α → Prop} {c : List α} (h : IsCycle r c) : ¬ Acyclic r := by
  obtain ⟨a, l, rfl, hc⟩ := h
  exact fun ha => ha a (transGen_of_isChain hc)

/-! ### Walks by their length -/

/-- A walk of so many edges. -/
inductive Steps (r : α → α → Prop) (a : α) : Nat → α → Prop where
  | refl : Steps r a 0 a
  | snoc {n : Nat} {b c : α} : Steps r a n b → r b c → Steps r a (n + 1) c

theorem Steps.cons {r : α → α → Prop} {a b c : α} {n : Nat} (hab : r a b) (h : Steps r b n c) :
    Steps r a (n + 1) c := by
  induction h with
  | refl => exact .snoc .refl hab
  | snoc _ hcd ih => exact .snoc ih hcd

theorem steps_of_isChain {r : α → α → Prop} {a b : α} {l : List α}
    (h : (a :: l ++ [b]).IsChain r) : Steps r a (l.length + 1) b := by
  induction l generalizing a with
  | nil => exact .snoc .refl (List.isChain_cons_cons.mp h).1
  | cons x l ih =>
    obtain ⟨hx, hl⟩ := List.isChain_cons_cons.mp h
    exact .cons hx (ih hl)

/-- A cycle is a walk from its first node back to it. -/
theorem IsCycle.steps {r : α → α → Prop} {c : List α} (h : IsCycle r c) :
    ∃ a b, r a b ∧ 0 < c.length ∧ Steps r a c.length a := by
  obtain ⟨a, l, rfl, hc⟩ := h
  have hsteps : Steps r a (a :: l).length a := steps_of_isChain hc
  cases l with
  | nil => exact ⟨a, a, (List.isChain_cons_cons.mp hc).1, Nat.succ_pos _, hsteps⟩
  | cons x l => exact ⟨a, x, (List.isChain_cons_cons.mp hc).1, Nat.succ_pos _, hsteps⟩

section Levels
variable {r : α → α → Prop} {source : α} {level : α → Option Nat} {bound : Nat}

/-- Where the edges out of every node below the bound lead at most one level up, and none
to the source, a walk from the source climbs at most one level with each edge. -/
theorem Steps.low (hsource : level source = some 0)
    (hup : ∀ a d, level a = some d → d < bound → ∀ b, r a b →
      b ≠ source ∧ ∃ e, e ≤ d + 1 ∧ level b = some e)
    {n : Nat} {a : α} (h : Steps r source n a) (hn : n ≤ bound) :
    ∃ d, d ≤ n ∧ level a = some d := by
  induction h with
  | refl => exact ⟨0, Nat.le_refl _, hsource⟩
  | snoc _ hbc ih =>
    obtain ⟨d, hd, hlevel⟩ := ih (by omega)
    obtain ⟨_, e, he, hlevel'⟩ := hup _ d hlevel (by omega) _ hbc
    exact ⟨e, by omega, hlevel'⟩

variable (level bound) in
/-- So no walk up to the bound returns to the source. -/
theorem Steps.no_return (hsource : level source = some 0)
    (hup : ∀ a d, level a = some d → d < bound → ∀ b, r a b →
      b ≠ source ∧ ∃ e, e ≤ d + 1 ∧ level b = some e)
    {n : Nat} (hpos : 0 < n) (hn : n ≤ bound) : ¬Steps r source n source := by
  intro h
  cases h with
  | refl => exact Nat.lt_irrefl _ hpos
  | snoc hwalk hedge =>
    obtain ⟨d, hd, hlevel⟩ := hwalk.low hsource hup (by omega)
    exact (hup _ d hlevel (by omega) _ hedge).1 rfl

end Levels

/-- A graph whose edges all go up in some rank is acyclic. -/
theorem acyclic_of_rank {r : α → α → Prop} (rank : α → Nat) (h : ∀ a b, r a b → rank a < rank b) :
    Acyclic r := by
  intro a ha
  have hlt : ∀ b, TransGen r a b → rank a < rank b := by
    intro b hb
    induction hb with
    | single hab => exact h _ _ hab
    | tail _ hbc ih => exact Nat.lt_trans ih (h _ _ hbc)
  exact Nat.lt_irrefl _ (hlt a ha)

theorem Acyclic.mono {r s : α → α → Prop} (h : Acyclic s) (hrs : ∀ a b, r a b → s a b) :
    Acyclic r := fun a ha => h a (TransGen.mono hrs _ _ ha)

/-- **Topological order.** The nodes of an acyclic graph can be listed so that no
edge goes back. -/
theorem Acyclic.topological {r : α → α → Prop} (h : Acyclic r) (nodes : List α) :
    ∃ order : List α, order.Perm nodes ∧ order.Pairwise fun a b => ¬ r b a := by
  classical
  have hpo : IsPartialOrder α (ReflTransGen r) :=
    { refl := fun _ => .refl
      trans := fun _ _ _ => .trans
      antisymm := by
        intro a b hab hba
        rcases reflTransGen_iff_eq_or_transGen.mp hab with rfl | hab'
        · rfl
        · exact absurd (hab'.trans_left hba) (h a) }
  obtain ⟨s, hs, hrs⟩ := extend_partialOrder (ReflTransGen r)
  refine ⟨nodes.insertionSort s, List.perm_insertionSort s nodes, ?_⟩
  refine (List.pairwise_insertionSort s nodes).imp fun {a b} hab hba => ?_
  have hba' : s b a := hrs _ _ (.single hba)
  have heq : a = b := antisymm hab hba'
  subst heq
  exact h a (.single hba)

end Simloom.Theory
