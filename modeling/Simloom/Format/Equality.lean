import Simloom.Format.Canonical

/-! Python's `==` between values read from JSON.

Numbers are equal when their values are, whatever their types, and two dicts when
each key of one is a key of the other with an equal value. On values whose objects
list no key twice this is equality of a normal form, hence an equivalence. -/
namespace Simloom
namespace Json

/-- The value of a number; `True` and `False` are numbers. -/
def number : Json → Option Rat
  | .bool b => some (if b then 1 else 0)
  | .int n => some n
  | .float x => some x
  | _ => none

def isNull : Json → Bool
  | .null => true
  | _ => false

mutual

/-- `a == b`. -/
def same : Json → Json → Bool
  | .null, other => other.isNull
  | .bool b, other => other.number == some (if b then 1 else 0)
  | .int n, other => other.number == some (n : Rat)
  | .float x, other => other.number == some x
  | .str s, other => other.equalsStr s
  | .arr items, .arr others => sameItems items others
  | .obj fields, .obj others => fields.length == others.length && sameFields fields others
  | _, _ => false

def sameItems : List Json → List Json → Bool
  | [], [] => true
  | v :: rest, w :: others => same v w && sameItems rest others
  | _, _ => false

/-- Every member has an equal one under its key. -/
def sameFields : List (String × Json) → List (String × Json) → Bool
  | [], _ => true
  | (key, v) :: rest, others => (get others key).any (same v) && sameFields rest others

end

mutual

/-- No object has a key twice. -/
def Unique : Json → Prop
  | .null => True
  | .bool _ => True
  | .int _ => True
  | .float _ => True
  | .str _ => True
  | .arr items => UniqueItems items
  | .obj fields => (fields.map Prod.fst).Nodup ∧ UniqueFields fields

def UniqueItems : List Json → Prop
  | [] => True
  | v :: rest => Unique v ∧ UniqueItems rest

def UniqueFields : List (String × Json) → Prop
  | [] => True
  | (_, v) :: rest => Unique v ∧ UniqueFields rest

end

mutual

/-- The normal form of `==`: numbers by value, members by key. -/
def byValue : Json → Json
  | .null => .null
  | .bool b => .float (if b then 1 else 0)
  | .int n => .float n
  | .float x => .float x
  | .str s => .str s
  | .arr items => .arr (byValueItems items)
  | .obj fields => .obj ((byValueFields fields).mergeSort keyLe)

def byValueItems : List Json → List Json
  | [] => []
  | v :: rest => byValue v :: byValueItems rest

def byValueFields : List (String × Json) → List (String × Json)
  | [] => []
  | (key, v) :: rest => (key, byValue v) :: byValueFields rest

end

theorem byValueFields_eq (fields : List (String × Json)) :
    byValueFields fields = fields.map fun p => (p.1, p.2.byValue) := by
  induction fields with
  | nil => rfl
  | cons p rest ih => rw [byValueFields, ih, List.map_cons]

theorem sameFields_iff (fields others : List (String × Json)) : sameFields fields others = true ↔
    ∀ p ∈ fields, ∃ w, get others p.1 = some w ∧ same p.2 w = true := by
  induction fields with
  | nil => simp [sameFields]
  | cons p rest ih => simp [sameFields, ih, Option.any_eq_true]

theorem uniqueFields_iff (fields : List (String × Json)) :
    UniqueFields fields ↔ ∀ p ∈ fields, p.2.Unique := by
  induction fields with
  | nil => simp [UniqueFields]
  | cons p rest ih => simp [UniqueFields, ih]

theorem byValue_number {x : Rat} (w : Json) : w.number = some x ↔ w.byValue = .float x := by
  cases w <;> simp [number, byValue]

/-- Members with equal values under the same keys, and as many, are the same members. -/
theorem perm_byValue {fields others : List (String × Json)} (hfields : (fields.map Prod.fst).Nodup)
    (hothers : (others.map Prod.fst).Nodup) (hlen : fields.length = others.length)
    (h : ∀ p ∈ fields, ∃ w, get others p.1 = some w ∧ p.2.byValue = w.byValue) :
    (byValueFields fields).Perm (byValueFields others) := by
  rw [byValueFields_eq, byValueFields_eq]
  have hnodup : (fields.map fun p => (p.1, p.2.byValue)).Nodup := by
    apply List.Nodup.of_map Prod.fst
    rwa [List.map_map]
  have hsub : (fields.map fun p => (p.1, p.2.byValue)) ⊆ others.map fun p => (p.1, p.2.byValue) := by
    intro q hq
    obtain ⟨p, hp, rfl⟩ := List.mem_map.mp hq
    obtain ⟨w, hw, hvalue⟩ := h p hp
    exact List.mem_map.mpr ⟨(p.1, w), (get_eq_some hothers p.1 w).mp hw, by rw [hvalue]⟩
  exact (List.subperm_of_subset hnodup hsub).perm_of_length_le (by simp [hlen])

theorem nodup_byValue {fields : List (String × Json)} (h : (fields.map Prod.fst).Nodup) :
    ((byValueFields fields).map Prod.fst).Nodup := by
  rw [byValueFields_eq, List.map_map]
  exact h

/-- Dicts in one normal form have the same keys, with values in one normal form. -/
theorem get_of_byValue {fields others : List (String × Json)} (hothers : (others.map Prod.fst).Nodup)
    (h : (byValueFields fields).mergeSort keyLe = (byValueFields others).mergeSort keyLe) :
    fields.length = others.length ∧
      ∀ p ∈ fields, ∃ w, get others p.1 = some w ∧ p.2.byValue = w.byValue := by
  have hperm : (byValueFields fields).Perm (byValueFields others) := by
    have hsort := List.mergeSort_perm (byValueFields fields) keyLe
    rw [h] at hsort
    exact hsort.symm.trans (List.mergeSort_perm _ keyLe)
  rw [byValueFields_eq, byValueFields_eq] at hperm
  refine ⟨by simpa using hperm.length_eq, fun p hp => ?_⟩
  obtain ⟨q, hq, heq⟩ := List.mem_map.mp (hperm.mem_iff.mp (List.mem_map_of_mem hp))
  obtain ⟨hkey, hvalue⟩ := Prod.ext_iff.mp heq
  exact ⟨q.2, (get_eq_some hothers p.1 q.2).mpr (by rwa [← hkey]), hvalue.symm⟩

mutual

/-- `==` is equality of normal forms. -/
theorem same_iff : ∀ {a b : Json}, a.Unique → b.Unique → (same a b = true ↔ a.byValue = b.byValue)
  | .null, b, _, _ => by cases b <;> simp [same, isNull, byValue]
  | .bool x, b, _, _ => by
    rw [same, beq_iff_eq, byValue_number, byValue, eq_comm]
  | .int n, b, _, _ => by
    rw [same, beq_iff_eq, byValue_number, byValue, eq_comm]
  | .float x, b, _, _ => by
    rw [same, beq_iff_eq, byValue_number, byValue, eq_comm]
  | .str s, b, _, _ => by
    cases b with
    | str t =>
      simp only [same, equalsStr, byValue, beq_iff_eq, Json.str.injEq]
      exact eq_comm
    | _ => simp [same, byValue, equalsStr]
  | .arr items, b, ha, hb => by
    cases b with
    | arr others =>
      rw [same, byValue, byValue, sameItems_iff ha hb, Json.arr.injEq]
    | _ => simp [same, byValue]
  | .obj fields, b, ha, hb => by
    cases b with
    | obj others =>
      have hmembers := sameMembers_iff ha.2 hb.2
      rw [same, byValue, byValue, Json.obj.injEq, Bool.and_eq_true, beq_iff_eq, sameFields_iff]
      constructor
      · rintro ⟨hlen, hsame⟩
        refine mergeSort_perm_eq (perm_byValue ha.1 hb.1 hlen fun p hp => ?_) (nodup_byValue ha.1)
        obtain ⟨w, hw, hpw⟩ := hsame p hp
        exact ⟨w, hw, (hmembers p hp w ((get_eq_some hb.1 p.1 w).mp hw)).mp hpw⟩
      · intro h
        obtain ⟨hlen, hvalue⟩ := get_of_byValue hb.1 h
        refine ⟨hlen, fun p hp => ?_⟩
        obtain ⟨w, hw, hpw⟩ := hvalue p hp
        exact ⟨w, hw, (hmembers p hp w ((get_eq_some hb.1 p.1 w).mp hw)).mpr hpw⟩
    | _ => simp [same, byValue]

theorem sameItems_iff : ∀ {items others : List Json}, UniqueItems items → UniqueItems others →
    (sameItems items others = true ↔ byValueItems items = byValueItems others)
  | [], others, _, _ => by cases others <;> simp [sameItems, byValueItems]
  | v :: rest, others, ha, hb => by
    cases others with
    | nil => simp [sameItems, byValueItems]
    | cons w others =>
      rw [sameItems, byValueItems, byValueItems, Bool.and_eq_true, same_iff ha.1 hb.1,
        sameItems_iff ha.2 hb.2, List.cons.injEq]

theorem sameMembers_iff : ∀ {fields others : List (String × Json)}, UniqueFields fields →
    UniqueFields others → ∀ p ∈ fields, ∀ w, (p.1, w) ∈ others →
      (same p.2 w = true ↔ p.2.byValue = w.byValue)
  | [], _, _, _, p, hp, _, _ => by simp at hp
  | (key, v) :: rest, others, ha, hb, p, hp, w, hw => by
    have hw' : w.Unique := (uniqueFields_iff others).mp hb _ hw
    rcases List.mem_cons.mp hp with rfl | hp
    · exact same_iff ha.1 hw'
    · exact sameMembers_iff ha.2 hb p hp w hw

end

theorem same_refl {a : Json} (ha : a.Unique) : same a a = true := (same_iff ha ha).mpr rfl

theorem same_symm {a b : Json} (ha : a.Unique) (hb : b.Unique) (h : same a b = true) :
    same b a = true := (same_iff hb ha).mpr ((same_iff ha hb).mp h).symm

theorem same_trans {a b c : Json} (ha : a.Unique) (hb : b.Unique) (hc : c.Unique)
    (hab : same a b = true) (hbc : same b c = true) : same a c = true :=
  (same_iff ha hc).mpr (((same_iff ha hb).mp hab).trans ((same_iff hb hc).mp hbc))

/-! ### Values read from text -/

theorem uniqueItems_iff (items : List Json) : UniqueItems items ↔ ∀ v ∈ items, v.Unique := by
  induction items with
  | nil => simp [UniqueItems]
  | cons v rest ih => simp [UniqueItems, ih]

/-- A dict built from pairs has each key once, and no other values. -/
theorem ofPairs_unique {pairs : List (String × Json)} (h : ∀ p ∈ pairs, p.2.Unique) :
    (obj (ofPairs pairs)).Unique := by
  suffices ∀ fields, (obj fields).Unique →
      (obj (pairs.foldl (fun fields p => Theory.Dict.put p.1 p.2 fields) fields)).Unique from
    this [] ⟨List.nodup_nil, trivial⟩
  induction pairs with
  | nil => exact fun fields hfields => hfields
  | cons p rest ih =>
    intro fields hfields
    refine ih (fun q hq => h q (List.mem_cons_of_mem p hq)) _
      ⟨Theory.Dict.nodup_put p.1 p.2 hfields.1, (uniqueFields_iff _).mpr fun q hq => ?_⟩
    rcases Theory.Dict.mem_of_mem_put hq with rfl | hq
    · exact h _ List.mem_cons_self
    · exact (uniqueFields_iff _).mp hfields.2 q hq

variable {F : FloatText}

theorem scan_unique (fuel : Nat) :
    (∀ text r, scanOnce F fuel text = some r → r.1.Unique) ∧
    (∀ text r, scanItems F fuel text = some r → ∀ v ∈ r.1, v.Unique) ∧
    (∀ text r, scanMembers F fuel text = some r → ∀ p ∈ r.1, p.2.Unique) := by
  induction fuel with
  | zero => simp [scanOnce, scanItems, scanMembers]
  | succ fuel ih =>
    obtain ⟨ihOnce, ihItems, ihMembers⟩ := ih
    refine ⟨?_, ?_, ?_⟩
    · intro text r hr
      cases text with
      | nil => simp [scanOnce] at hr
      | cons c rest =>
        simp only [scanOnce] at hr
        split_ifs at hr
        · obtain ⟨s, -, rfl⟩ := Option.map_eq_some_iff.mp hr
          trivial
        · split at hr
          next =>
            obtain rfl := Option.some.inj hr
            exact ⟨List.nodup_nil, trivial⟩
          next =>
            obtain ⟨mid, -, hr⟩ := Option.bind_eq_some_iff.mp hr
            obtain ⟨s, hs, rfl⟩ := Option.map_eq_some_iff.mp hr
            exact ofPairs_unique (ihMembers mid s hs)
        · split at hr
          next =>
            obtain rfl := Option.some.inj hr
            trivial
          next =>
            obtain ⟨s, hs, rfl⟩ := Option.map_eq_some_iff.mp hr
            exact (uniqueItems_iff s.1).mpr (ihItems _ s hs)
        all_goals
          obtain ⟨s, -, rfl⟩ := Option.map_eq_some_iff.mp hr
          first | trivial | (simp only; split <;> trivial)
    · intro text r hr
      obtain ⟨v, hv, hr⟩ := Option.bind_eq_some_iff.mp (by simpa only [scanItems] using hr)
      have hunique := ihOnce text v hv
      split at hr
      next =>
        obtain rfl := Option.some.inj hr
        simpa using hunique
      next =>
        obtain ⟨mid, -, hr⟩ := Option.bind_eq_some_iff.mp hr
        obtain ⟨s, hs, rfl⟩ := Option.map_eq_some_iff.mp hr
        simpa [hunique] using ihItems _ s hs
    · intro text r hr
      obtain ⟨key, -, hr⟩ := Option.bind_eq_some_iff.mp (by simpa only [scanMembers] using hr)
      obtain ⟨rest, -, hr⟩ := Option.bind_eq_some_iff.mp hr
      obtain ⟨v, hv, hr⟩ := Option.bind_eq_some_iff.mp hr
      have hunique := ihOnce _ v hv
      split at hr
      next =>
        obtain rfl := Option.some.inj hr
        simpa using hunique
      next =>
        obtain ⟨mid, -, hr⟩ := Option.bind_eq_some_iff.mp hr
        obtain ⟨mid', -, hr⟩ := Option.bind_eq_some_iff.mp hr
        obtain ⟨s, hs, rfl⟩ := Option.map_eq_some_iff.mp hr
        intro p hp
        rcases List.mem_cons.mp hp with rfl | hp
        · exact hunique
        · exact ihMembers _ s hs p hp

/-- No text reads as an object with a key twice. -/
theorem loads_unique {text : List Char} {v : Json} (h : loads F text = some v) : v.Unique := by
  obtain ⟨r, hr, h⟩ := Option.bind_eq_some_iff.mp h
  split at h
  · exact Option.some.inj h ▸ (scan_unique _).1 _ r hr
  · simp at h

mutual

theorem Proper.unique : ∀ {v : Json}, v.Proper F → v.Unique
  | .null, _ => trivial
  | .bool _, _ => trivial
  | .int _, _ => trivial
  | .float _, _ => trivial
  | .str _, _ => trivial
  | .arr _, h => ProperItems.unique h
  | .obj _, h => ⟨h.1, ProperFields.unique h.2⟩

theorem ProperItems.unique : ∀ {items : List Json}, ProperItems F items → UniqueItems items
  | [], _ => trivial
  | _ :: _, h => ⟨Proper.unique h.1, ProperItems.unique h.2⟩

theorem ProperFields.unique : ∀ {fields : List (String × Json)}, ProperFields F fields →
    UniqueFields fields
  | [], _ => trivial
  | (_, _) :: _, h => ⟨Proper.unique h.1, ProperFields.unique h.2⟩

end

mutual

/-- `==` does not see the order of members. -/
theorem byValue_sortKeys : ∀ {v : Json}, v.Unique → v.sortKeys.byValue = v.byValue
  | .null, _ => rfl
  | .bool _, _ => rfl
  | .int _, _ => rfl
  | .float _, _ => rfl
  | .str _, _ => rfl
  | .arr items, h => by rw [sortKeys, byValue, byValue, byValueItems_sortItems h]
  | .obj fields, h => by
    have hperm := List.mergeSort_perm (sortFields fields) keyLe
    have hkeys : (((sortFields fields).mergeSort keyLe).map Prod.fst).Nodup := by
      rw [sortFields_eq]
      exact (keys_sorted fields sortKeys).nodup_iff.mpr h.1
    rw [sortKeys, byValue, byValue, ← byValueFields_sortFields h.2, Json.obj.injEq]
    refine mergeSort_perm_eq ?_ (nodup_byValue hkeys)
    rw [byValueFields_eq, byValueFields_eq]
    exact hperm.map _

theorem byValueItems_sortItems : ∀ {items : List Json}, UniqueItems items →
    byValueItems (sortItems items) = byValueItems items
  | [], _ => rfl
  | _ :: _, h => by
    rw [sortItems, byValueItems, byValueItems, byValue_sortKeys h.1, byValueItems_sortItems h.2]

theorem byValueFields_sortFields : ∀ {fields : List (String × Json)}, UniqueFields fields →
    byValueFields (sortFields fields) = byValueFields fields
  | [], _ => rfl
  | (_, _) :: _, h => by
    rw [sortFields, byValueFields, byValueFields, byValue_sortKeys h.1, byValueFields_sortFields h.2]

end

end Json
end Simloom
