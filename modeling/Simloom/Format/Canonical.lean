import Simloom.Format.Reading

/-! The canonical text of a value, and Python's `==` between values.

Sorting the keys forgets the order of an object's members and nothing else, so the
canonical text determines a value up to that order. Python's `==` forgets more:
numbers are compared by value whatever their type. -/
namespace Simloom
namespace Json

/-! ### Members -/

theorem sortItems_eq (items : List Json) : sortItems items = items.map sortKeys := by
  induction items with
  | nil => rfl
  | cons v rest ih => rw [sortItems, ih, List.map_cons]

theorem sortFields_eq (fields : List (String × Json)) :
    sortFields fields = fields.map fun p => (p.1, p.2.sortKeys) := by
  induction fields with
  | nil => rfl
  | cons p rest ih => rw [sortFields, ih, List.map_cons]

variable {F : FloatText}

theorem properItems_iff (items : List Json) : ProperItems F items ↔ ∀ v ∈ items, v.Proper F := by
  induction items with
  | nil => simp [ProperItems]
  | cons v rest ih => simp [ProperItems, ih]

theorem properFields_iff (fields : List (String × Json)) :
    ProperFields F fields ↔ ∀ p ∈ fields, p.2.Proper F := by
  induction fields with
  | nil => simp [ProperFields]
  | cons p rest ih => simp [ProperFields, ih]

/-- In a dict a key has the value it is listed with. -/
theorem get_eq_some {fields : List (String × Json)} (h : (fields.map Prod.fst).Nodup) (key : String)
    (v : Json) : get fields key = some v ↔ (key, v) ∈ fields := by
  induction fields with
  | nil => simp [get]
  | cons p rest ih =>
    obtain ⟨hp, hrest⟩ := List.nodup_cons.mp h
    unfold get at ih ⊢
    rw [List.lookup_cons, List.mem_cons]
    by_cases hkey : key = p.1
    · have hnot : ∀ w, (key, w) ∉ rest := fun w hmem =>
        hp (hkey ▸ List.mem_map_of_mem (f := Prod.fst) hmem)
      simp [hkey, Prod.ext_iff, hkey ▸ hnot v, eq_comm]
    · have hne : (key == p.1) = false := beq_eq_false_iff_ne.mpr hkey
      simp [hne, ih hrest, Prod.ext_iff, hkey]

theorem get_perm {a b : List (String × Json)} (h : a.Perm b) (ha : (a.map Prod.fst).Nodup)
    (key : String) : get a key = get b key := by
  apply Option.ext
  intro v
  rw [get_eq_some ha, get_eq_some ((h.map Prod.fst).nodup_iff.mp ha), h.mem_iff]

/-! ### Sorting -/

theorem keyLe_trans (a b c : String × Json) : keyLe a b = true → keyLe b c = true → keyLe a c = true := by
  simp only [keyLe, decide_eq_true_eq]
  exact String.le_trans

theorem keyLe_total (a b : String × Json) : (keyLe a b || keyLe b a) = true := by
  simp only [keyLe, Bool.or_eq_true, decide_eq_true_eq]
  exact String.le_total a.1 b.1

/-- The members of a dict come out in one order only. -/
theorem mergeSort_perm_eq {a b : List (String × Json)} (h : a.Perm b) (ha : (a.map Prod.fst).Nodup) :
    a.mergeSort keyLe = b.mergeSort keyLe := by
  have hpa := List.mergeSort_perm a keyLe
  have hpb := List.mergeSort_perm b keyLe
  have hsa := List.pairwise_mergeSort keyLe_trans keyLe_total a
  have hsb := List.pairwise_mergeSort keyLe_trans keyLe_total b
  refine (hpa.trans (h.trans hpb.symm)).eq_of_pairwise ?_ hsa hsb
  intro x y hx hy hxy hyx
  simp only [keyLe, decide_eq_true_eq] at hxy hyx
  have hkey : x.1 = y.1 := String.le_antisymm hxy hyx
  have hxa : x ∈ a := hpa.mem_iff.mp hx
  have hya : y ∈ a := h.mem_iff.mpr (hpb.mem_iff.mp hy)
  exact List.inj_on_of_nodup_map ha hxa hya hkey

theorem keys_sorted (fields : List (String × Json)) (f : Json → Json) :
    (((fields.map fun p => (p.1, f p.2)).mergeSort keyLe).map Prod.fst).Perm (fields.map Prod.fst) := by
  have h := (List.mergeSort_perm (fields.map fun p => (p.1, f p.2)) keyLe).map Prod.fst
  rwa [List.map_map, show (Prod.fst ∘ fun p : String × Json => (p.1, f p.2)) = Prod.fst from rfl] at h

mutual

/-- Sorting keeps a value proper. -/
theorem Proper.sortKeys : ∀ {v : Json}, v.Proper F → v.sortKeys.Proper F
  | .null, _ => trivial
  | .bool _, _ => trivial
  | .int _, _ => trivial
  | .float _, h => h
  | .str _, _ => trivial
  | .arr items, h => ProperItems.sortItems h
  | .obj fields, h => by
    have hfields := ProperFields.sortFields h.2
    rw [sortFields_eq] at hfields
    refine ⟨?_, ?_⟩
    · rw [sortFields_eq]
      exact (keys_sorted fields Json.sortKeys).nodup_iff.mpr h.1
    · rw [sortFields_eq, properFields_iff]
      intro p hp
      exact (properFields_iff _).mp hfields p ((List.mergeSort_perm _ keyLe).mem_iff.mp hp)

theorem ProperItems.sortItems : ∀ {items : List Json}, ProperItems F items →
    ProperItems F (Json.sortItems items)
  | [], _ => trivial
  | _ :: _, h => ⟨Proper.sortKeys h.1, ProperItems.sortItems h.2⟩

theorem ProperFields.sortFields : ∀ {fields : List (String × Json)}, ProperFields F fields →
    ProperFields F (Json.sortFields fields)
  | [], _ => trivial
  | (_, _) :: _, h => ⟨Proper.sortKeys h.1, ProperFields.sortFields h.2⟩

end

/-- The member of a sorted object is that of the object, sorted. -/
theorem get_sortFields {fields : List (String × Json)} (h : (fields.map Prod.fst).Nodup) (key : String) :
    get ((sortFields fields).mergeSort keyLe) key = (get fields key).map sortKeys := by
  have hmap : get (sortFields fields) key = (get fields key).map sortKeys := by
    rw [sortFields_eq]
    clear h
    induction fields with
    | nil => rfl
    | cons p rest ih =>
      unfold get at ih ⊢
      rw [List.map_cons, List.lookup_cons, List.lookup_cons, ih]
      split <;> rfl
  rw [← hmap]
  refine get_perm (List.mergeSort_perm _ keyLe) ?_ key
  rw [sortFields_eq]
  exact (keys_sorted fields sortKeys).nodup_iff.mpr h

/-- The canonical text reads back as the value with its keys sorted. -/
theorem loads_canonical {v : Json} (hv : v.Proper F) : loads F (canonical F v) = some v.sortKeys :=
  loads_write .compact hv.sortKeys

/-- Values with one canonical text differ in the order of members only. -/
theorem canonical_inj {v w : Json} (hv : v.Proper F) (hw : w.Proper F) :
    canonical F v = canonical F w ↔ v.sortKeys = w.sortKeys := by
  constructor
  · intro h
    have hread := loads_canonical hv
    rw [h, loads_canonical hw] at hread
    exact (Option.some.inj hread).symm
  · intro h
    rw [canonical, h, ← canonical]

end Json
end Simloom
