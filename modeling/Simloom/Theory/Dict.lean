import Mathlib.Data.List.Nodup

/-! Dictionaries in insertion order.

A key is listed once, in the place where it was first set; setting it again
changes its value there. -/
namespace Simloom.Theory

structure Dict (κ α : Type) where
  entries : List (κ × α)
  nodup : (entries.map Prod.fst).Nodup

namespace Dict
variable {κ α : Type} [DecidableEq κ]

/-- Set a key among entries. -/
def put (k : κ) (a : α) : List (κ × α) → List (κ × α)
  | [] => [(k, a)]
  | e :: rest => if e.1 = k then (k, a) :: rest else e :: put k a rest

/-- The value of a key among entries. -/
def find (k : κ) : List (κ × α) → Option α
  | [] => none
  | e :: rest => if e.1 = k then some e.2 else find k rest

theorem mem_keys_put (k x : κ) (a : α) (es : List (κ × α)) :
    x ∈ (put k a es).map Prod.fst ↔ x = k ∨ x ∈ es.map Prod.fst := by
  induction es with
  | nil => simp [put]
  | cons e rest ih =>
    unfold put
    split
    next h => simp [h]
    next h =>
      simp only [List.map_cons, List.mem_cons, ih]
      tauto

theorem nodup_put (k : κ) (a : α) {es : List (κ × α)} (h : (es.map Prod.fst).Nodup) :
    ((put k a es).map Prod.fst).Nodup := by
  induction es with
  | nil => exact List.nodup_singleton k
  | cons e rest ih =>
    obtain ⟨he, hr⟩ := List.nodup_cons.mp h
    unfold put
    split
    next hk => exact List.nodup_cons.mpr ⟨hk ▸ he, hr⟩
    next hk =>
      refine List.nodup_cons.mpr ⟨fun hm => ?_, ih hr⟩
      rcases (mem_keys_put k e.1 a rest).mp hm with hek | hm
      · exact hk hek
      · exact he hm

theorem find_put (k x : κ) (a : α) (es : List (κ × α)) :
    find x (put k a es) = if x = k then some a else find x es := by
  induction es with
  | nil => simp [put, find, eq_comm]
  | cons e rest ih =>
    unfold put
    by_cases hk : e.1 = k
    · rw [if_pos hk]
      by_cases hx : x = k
      · simp [find, hx]
      · have hek : e.1 ≠ x := fun h => hx (h.symm.trans hk)
        simp [find, hx, Ne.symm hx, hek]
    · rw [if_neg hk]
      by_cases he : e.1 = x
      · have hx : x ≠ k := fun h => hk (he.trans h)
        simp [find, he, hx]
      · simp only [find, if_neg he, ih]

theorem find_eq_none {k : κ} {es : List (κ × α)} (h : k ∉ es.map Prod.fst) : find k es = none := by
  induction es with
  | nil => rfl
  | cons e rest ih =>
    rw [List.map_cons, List.mem_cons, not_or] at h
    rw [find, if_neg (Ne.symm h.1), ih h.2]

def empty : Dict κ α := ⟨[], List.nodup_nil⟩

def get? (d : Dict κ α) (k : κ) : Option α := find k d.entries

def set (d : Dict κ α) (k : κ) (a : α) : Dict κ α := ⟨put k a d.entries, nodup_put k a d.nodup⟩

@[simp] theorem get?_empty (k : κ) : (empty : Dict κ α).get? k = none := rfl

@[simp] theorem get?_set (d : Dict κ α) (k x : κ) (a : α) :
    (d.set k a).get? x = if x = k then some a else d.get? x := find_put k x a d.entries

/-- Take a key out among entries. -/
def without (k : κ) (es : List (κ × α)) : List (κ × α) := es.filter fun e => e.1 ≠ k

theorem nodup_without (k : κ) {es : List (κ × α)} (h : (es.map Prod.fst).Nodup) :
    ((without k es).map Prod.fst).Nodup :=
  (List.filter_sublist.map Prod.fst).nodup h

theorem find_without (k x : κ) (es : List (κ × α)) :
    find x (without k es) = if x = k then none else find x es := by
  induction es with
  | nil => simp [without, find]
  | cons e rest ih =>
    by_cases hk : e.1 = k
    · have hw : without k (e :: rest) = without k rest := by simp [without, hk]
      rw [hw, ih]
      by_cases hx : x = k
      · simp [hx]
      · have hex : e.1 ≠ x := fun h => hx (h.symm.trans hk)
        simp [find, hx, hex]
    · have hw : without k (e :: rest) = e :: without k rest := by simp [without, hk]
      rw [hw, find, find, ih]
      by_cases he : e.1 = x
      · have hx : x ≠ k := fun h => hk (he.trans h)
        simp [he, hx]
      · simp [he]

/-- `pop` of a key that may be absent. -/
def pop (d : Dict κ α) (k : κ) : Dict κ α := ⟨without k d.entries, nodup_without k d.nodup⟩

@[simp] theorem get?_pop (d : Dict κ α) (k x : κ) :
    (d.pop k).get? x = if x = k then none else d.get? x := find_without k x d.entries

def keys (d : Dict κ α) : List κ := d.entries.map Prod.fst

theorem get?_set_self (d : Dict κ α) (k : κ) (a : α) : (d.set k a).get? k = some a := by simp

theorem get?_set_ne (d : Dict κ α) {k x : κ} (a : α) (h : x ≠ k) :
    (d.set k a).get? x = d.get? x := by simp [h]

/-- The entries are the graph of the lookup. -/
theorem mem_entries {d : Dict κ α} {k : κ} {a : α} : (k, a) ∈ d.entries ↔ d.get? k = some a := by
  obtain ⟨es, hn⟩ := d
  show (k, a) ∈ es ↔ find k es = some a
  induction es with
  | nil => simp [find]
  | cons e rest ih =>
    obtain ⟨he, hr⟩ := List.nodup_cons.mp hn
    rw [List.mem_cons, ih hr, find]
    by_cases hk : e.1 = k
    · have hnone : find k rest ≠ some a := fun hf =>
        he (List.mem_map.mpr ⟨(k, a), (ih hr).mpr hf, hk.symm⟩)
      rw [if_pos hk, Option.some.injEq]
      constructor
      · rintro (rfl | hf)
        · rfl
        · exact absurd hf hnone
      · rintro rfl
        exact .inl (Prod.ext hk.symm rfl)
    · rw [if_neg hk]
      refine ⟨fun h => h.resolve_left fun h => hk ?_, .inr⟩
      rw [← h]

theorem mem_of_mem_put {k : κ} {a : α} {es : List (κ × α)} {p : κ × α} (h : p ∈ put k a es) :
    p = (k, a) ∨ p ∈ es := by
  induction es with
  | nil => exact .inl (List.mem_singleton.mp h)
  | cons e rest ih =>
    rw [put] at h
    split at h
    · exact (List.mem_cons.mp h).imp_right (List.mem_cons_of_mem e)
    · rcases List.mem_cons.mp h with rfl | h
      · exact .inr List.mem_cons_self
      · exact (ih h).imp_right (List.mem_cons_of_mem e)

/-- A key that is set for the first time comes last. -/
theorem put_of_not_mem {k : κ} (a : α) {es : List (κ × α)} (h : k ∉ es.map Prod.fst) :
    put k a es = es ++ [(k, a)] := by
  induction es with
  | nil => rfl
  | cons e rest ih =>
    rw [List.map_cons, List.mem_cons, not_or] at h
    rw [put, if_neg (Ne.symm h.1), ih h.2, List.cons_append]

/-- Taking a key out takes out its one entry. -/
theorem perm_pop {d : Dict κ α} {k : κ} {a : α} (h : d.get? k = some a) :
    d.entries.Perm ((k, a) :: (d.pop k).entries) := by
  obtain ⟨es, hn⟩ := d
  have hmem : (k, a) ∈ es := mem_entries.mpr h
  show es.Perm ((k, a) :: without k es)
  clear h
  induction es with
  | nil => cases hmem
  | cons e rest ih =>
    obtain ⟨he, hr⟩ := List.nodup_cons.mp hn
    rcases List.mem_cons.mp hmem with rfl | hrest
    · have hkept : without k rest = rest := List.filter_eq_self.mpr fun x hx => by
        have hne : x.1 ≠ k := fun hxk => he (List.mem_map.mpr ⟨x, hx, hxk⟩)
        simpa using hne
      have hhead : without k ((k, a) :: rest) = without k rest := by simp [without]
      rw [hhead, hkept]
    · have hne : e.1 ≠ k := fun hek => he (List.mem_map.mpr ⟨(k, a), hrest, hek.symm⟩)
      have hhead : without k (e :: rest) = e :: without k rest := by simp [without, hne]
      rw [hhead]
      exact ((ih hr hrest).cons e).trans (.swap _ _ _)

theorem mem_keys {d : Dict κ α} {k : κ} : k ∈ d.keys ↔ (d.get? k).isSome := by
  rw [keys, List.mem_map, Option.isSome_iff_exists]
  constructor
  · rintro ⟨e, he, rfl⟩
    exact ⟨e.2, mem_entries.mp he⟩
  · rintro ⟨a, ha⟩
    exact ⟨(k, a), mem_entries.mpr ha, rfl⟩

end Dict

end Simloom.Theory
