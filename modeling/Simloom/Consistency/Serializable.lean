import Simloom.Consistency.Serial

/-! What serializability takes beyond the check.

The checker infers dependencies from the longest reads. A history with unique
appends is serializable exactly when its reads are `Coherent` and those dependencies
stay acyclic after one adds the ones it leaves out: a reader of a key comes before
every other transaction that appended to the key a value no read of it holds
(`Unread`). So a passing verdict is right exactly when this says so
(`check_ok_serializable_iff`), and a write skew over two keys is wrongly passed. -/
namespace Simloom
open Relation (TransGen)
open Theory (Acyclic Dict)
variable {V : Type} [DecidableEq V]

namespace History
variable (H : History V)

/-- Some order of the recorded transactions, run from empty lists, gives every read
what it recorded. -/
def Serializable : Prop :=
  ∃ order : List (Transaction V), order.Perm H.transactions ∧
    SeriallyRuns (order.map Transaction.ops)

/-- No value is appended twice. -/
def UniqueAppends : Prop := (appended (H.transactions.flatMap Transaction.ops)).Nodup

instance : Decidable H.UniqueAppends := inferInstanceAs (Decidable (List.Nodup _))

/-- The reads of a history agree with each other and with its appends. -/
structure Coherent : Prop where
  prefixes : ∀ t ∈ H.transactions, ∀ key r order, Reads t key r →
    H.versionOrder.get? key = some order → r <+: order
  nodup : ∀ key order, H.versionOrder.get? key = some order → order.Nodup
  appended : ∀ key order, H.versionOrder.get? key = some order → ∀ v ∈ order,
    ∃ t ∈ H.transactions, Appends t key v
  programOrder : ∀ t ∈ H.transactions, ∀ key order, H.versionOrder.get? key = some order →
    (order.filter (· ∈ appendsTo key t.ops)).Sublist (appendsTo key t.ops)
  ownAppends : ∀ t ∈ H.transactions, ∀ pre key r post, t.ops = pre ++ .read key r :: post →
    ∀ v, Appends t key v → (v ∈ r ↔ v ∈ appendsTo key pre)

/-- A reader of a key, and another transaction that appended to the key a value that
its longest read does not hold. -/
def Unread (u v : Nat) : Prop :=
  u ≠ v ∧ ∃ key order, H.versionOrder.get? key = some order ∧
    (∃ t ∈ H.transactions, t.index = u ∧ ∃ r, Reads t key r) ∧
    ∃ s ∈ H.transactions, s.index = v ∧ ∃ a, Appends s key a ∧ a ∉ order

/-- The inferred dependencies and those on unread appends. -/
def Constrains (u v : Nat) : Prop := H.Depends u v ∨ H.Unread u v

end History

/-! ### A serializable history is coherent -/

namespace Placed
variable {H : History V} {full : List (List (Op V))} {pos : Nat → Nat} (h : Placed H full pos)
include h

theorem constrains_forward {u v : Nat} (huv : H.Constrains u v) : pos u < pos v := by
  rcases huv with huv | ⟨hne, key, order, ho, ⟨t, ht, rfl, r, hr⟩, s, hs, rfl, a, ha, hao⟩
  · exact h.depends_forward huv
  · refine Nat.lt_of_le_of_ne ?_ fun heq => hne (h.injective t ht s hs heq)
    exact h.unseen_le ht hs hr (fun har => hao ((h.read_prefix_order ht hr ho).subset har)) ha

/-- Coherence, when every transaction of the execution is recorded. -/
theorem coherent (hall : ∀ i < full.length, ∃ t ∈ H.transactions, pos t.index = i) :
    H.Coherent where
  prefixes := fun t ht key r order hr ho => h.read_prefix_order ht hr ho
  nodup := fun key order ho => h.order_nodup ho
  appended := by
    intro key order ho v hv
    obtain ⟨ops, hmem, hva⟩ := List.mem_flatten.mp (mem_appendsTo.mp ((h.order_prefix ho).subset hv))
    obtain ⟨i, hi, hget⟩ := List.mem_iff_getElem.mp hmem
    obtain ⟨t, ht, hpos⟩ := hall i hi
    have hops := h.placed t ht
    rw [hpos, List.getElem?_eq_getElem hi, hget] at hops
    refine ⟨t, ht, ?_⟩
    rw [History.Appends, ← Option.some.inj hops]
    exact hva
  programOrder := by
    intro t ht key order ho
    have hfinal : appendsTo key full.flatten = appendsTo key (full.take (pos t.index)).flatten ++
        (appendsTo key t.ops ++ appendsTo key (full.drop (pos t.index + 1)).flatten) := by
      conv_lhs => rw [h.split ht]
      rw [List.flatten_append, List.flatten_cons, appendsTo_append, appendsTo_append]
    have hnodup := h.final_nodup key
    rw [hfinal] at hnodup
    obtain ⟨_, hrest, hdisj⟩ := List.nodup_append.mp hnodup
    obtain ⟨_, _, hdisj'⟩ := List.nodup_append.mp hrest
    -- of the whole list, only the transaction's own segment is its own
    have hown : (appendsTo key full.flatten).filter (· ∈ appendsTo key t.ops) =
        appendsTo key t.ops := by
      rw [hfinal, List.filter_append, List.filter_append]
      have hbefore : (appendsTo key (full.take (pos t.index)).flatten).filter
          (· ∈ appendsTo key t.ops) = [] := by
        refine List.filter_eq_nil_iff.mpr fun v hv hin => ?_
        exact hdisj v hv v (List.mem_append_left _ (of_decide_eq_true hin)) rfl
      have hafter : (appendsTo key (full.drop (pos t.index + 1)).flatten).filter
          (· ∈ appendsTo key t.ops) = [] := by
        refine List.filter_eq_nil_iff.mpr fun v hv hin => ?_
        exact hdisj' v (of_decide_eq_true hin) v hv rfl
      have hself : (appendsTo key t.ops).filter (· ∈ appendsTo key t.ops) =
          appendsTo key t.ops := List.filter_eq_self.mpr fun v hv => decide_eq_true hv
      rw [hbefore, hafter, hself, List.nil_append, List.append_nil]
    have hsub := (h.order_prefix ho).sublist.filter (fun v => decide (v ∈ appendsTo key t.ops))
    rw [hown] at hsub
    exact hsub
  ownAppends := by
    intro t ht pre key r post hops v hv
    rw [h.read_eq ht hops, List.mem_append]
    refine or_iff_right fun hbefore => ?_
    have hlt := h.position_lt ht hbefore (History.mem_appended.mpr ⟨key, hv⟩)
    exact Nat.lt_irrefl _ hlt

end Placed

omit [DecidableEq V] in
theorem appended_eq_filterMap (ops : List (Op V)) : History.appended ops =
    ops.filterMap fun op => match op with
      | .append _ v => some v
      | .read _ _ => none := by
  induction ops with
  | nil => rfl
  | cons op ops ih =>
    cases op with
    | append k v => simp [History.appended, ih]
    | read k r => simp [History.appended, ih]

omit [DecidableEq V] in
theorem appended_perm {a b : List (Op V)} (h : a.Perm b) :
    (History.appended a).Perm (History.appended b) := by
  rw [appended_eq_filterMap, appended_eq_filterMap]
  exact h.filterMap _

/-! ### Orders of the recorded transactions -/

section Order
variable {H : History V} {order : List (Transaction V)} (hperm : order.Perm H.transactions)
include hperm

omit [DecidableEq V] in
theorem order_index_nodup : (order.map Transaction.index).Nodup := by
  refine (hperm.map Transaction.index).nodup_iff.mpr ?_
  rw [H.indexed]
  exact List.nodup_range

omit [DecidableEq V] in
theorem order_unique (hu : H.UniqueAppends) :
    (History.appended (order.map Transaction.ops).flatten).Nodup := by
  have hflat : (order.map Transaction.ops).flatten.Perm
      (H.transactions.flatMap Transaction.ops) := (hperm.map Transaction.ops).flatten
  exact (appended_perm hflat).nodup_iff.mpr hu

/-- An order that runs places the history in it. -/
theorem order_placed (hu : H.UniqueAppends) (hrun : SeriallyRuns (order.map Transaction.ops)) :
    Placed H (order.map Transaction.ops) fun i => (order.map Transaction.index).idxOf i where
  runs := hrun
  unique := order_unique hperm hu
  placed := by
    intro t ht
    have hmem : t.index ∈ order.map Transaction.index :=
      List.mem_map.mpr ⟨t, hperm.mem_iff.mpr ht, rfl⟩
    have hget := List.getElem?_idxOf hmem
    rw [List.getElem?_map] at hget ⊢
    obtain ⟨s, hs, hi⟩ := Option.map_eq_some_iff.mp hget
    have hst : s = t := H.index_inj (hperm.mem_iff.mp (List.mem_of_getElem? hs)) ht hi
    rw [hs, hst]
    rfl
  injective := by
    intro t ht s hs h
    exact (List.idxOf_inj (List.mem_map.mpr ⟨t, hperm.mem_iff.mpr ht, rfl⟩)).mp h

omit [DecidableEq V] in
theorem order_all (i : Nat) (hi : i < (order.map Transaction.ops).length) :
    ∃ t ∈ H.transactions, (order.map Transaction.index).idxOf t.index = i := by
  rw [List.length_map] at hi
  refine ⟨order[i], hperm.mem_iff.mp (List.getElem_mem hi), ?_⟩
  have hlen : i < (order.map Transaction.index).length := by
    rw [List.length_map]
    exact hi
  have hget : (order.map Transaction.index)[i] = (order[i]).index := List.getElem_map ..
  rw [← hget]
  exact (order_index_nodup hperm).idxOf_getElem i hlen

variable (hord : order.Pairwise fun a b => ¬ H.Constrains b.index a.index)
include hord

/-- What constrains a transaction stands before it. -/
theorem mem_before {o₁ o₂ : List (Transaction V)} {t u : Transaction V}
    (hsplit : order = o₁ ++ t :: o₂) (hu : u ∈ H.transactions)
    (hc : H.Constrains u.index t.index) : u ∈ o₁ := by
  have hmem := hperm.mem_iff.mpr hu
  rw [hsplit] at hmem hord
  rcases List.mem_append.mp hmem with hmem | hmem
  · exact hmem
  · rcases List.mem_cons.mp hmem with rfl | hmem
    · rcases hc with hc | hc <;> exact absurd rfl hc.1
    · have hlater := (List.pairwise_cons.mp (List.pairwise_append.mp hord).2.1).1 u hmem
      exact absurd hc hlater

end Order

/-! ### A coherent history without cycles is serializable -/

/-- Who appended a value that is appended once. -/
theorem appender_eq {H : History V} (hu : H.UniqueAppends) {t : Transaction V}
    (ht : t ∈ H.transactions) {key : String} {v : V} (ha : History.Appends t key v) :
    H.appender.get? v = some t.index := by
  obtain ⟨i, hi⟩ := H.appender_isSome ht ha
  obtain ⟨s, hs, rfl, k, hk⟩ := H.appender_some hi
  have hget : ∀ x ∈ H.transactions, (H.transactions.map Transaction.ops)[x.index]? = some x.ops :=
    fun x hx => by rw [List.getElem?_map, H.get_index hx]; rfl
  rw [hi, position_unique hu (hget s hs) (hget t ht) (History.mem_appended.mpr ⟨k, hk⟩)
    (History.mem_appended.mpr ⟨key, ha⟩)]

/-- Where an element of a concatenation comes from. -/
theorem flatten_split {α : Type} {L : List (List α)} {P Q : List α} {x : α}
    (h : L.flatten = P ++ x :: Q) :
    ∃ L₁ l L₂ pre post, L = L₁ ++ l :: L₂ ∧ l = pre ++ x :: post ∧ P = L₁.flatten ++ pre := by
  induction L generalizing P with
  | nil => simp at h
  | cons l L ih =>
    rw [List.flatten_cons] at h
    rcases List.append_eq_append_iff.mp h with ⟨P', rfl, hL⟩ | ⟨Q', rfl, hQ⟩
    · obtain ⟨L₁, l', L₂, pre, post, rfl, hl, rfl⟩ := ih hL
      exact ⟨l :: L₁, l', L₂, pre, post, rfl, hl, by simp⟩
    · cases Q' with
      | nil =>
        obtain ⟨L₁, l', L₂, pre, post, rfl, hl, hP⟩ := ih (P := []) hQ.symm
        refine ⟨(P ++ []) :: L₁, l', L₂, pre, post, rfl, hl, ?_⟩
        rw [List.flatten_cons, List.append_assoc, ← hP]
        simp
      | cons y Q' =>
        obtain ⟨rfl, _⟩ := List.cons.inj hQ
        exact ⟨[], _, L, P, Q', rfl, rfl, by simp⟩

/-- A relation between neighbours makes a chain. -/
theorem isChain_of_neighbours {α : Type} {r : α → α → Prop} {l : List α}
    (h : ∀ before a b after, l = before ++ a :: b :: after → r a b) : l.IsChain r := by
  induction l with
  | nil => exact .nil
  | cons x l ih =>
    cases l with
    | nil => exact List.isChain_singleton _
    | cons y l =>
      refine List.isChain_cons_cons.mpr ⟨h [] x y l rfl, ih fun before a b after hl => ?_⟩
      exact h (x :: before) a b after (by rw [hl]; rfl)

/-- A list without repetition is in the order of its own positions. -/
theorem pairwise_idxOf {l : List V} (hl : l.Nodup) :
    l.Pairwise fun a b => l.idxOf a < l.idxOf b := by
  rw [List.pairwise_iff_getElem]
  intro i j hi hj hij
  rw [hl.idxOf_getElem i hi, hl.idxOf_getElem j hj]
  exact hij

section Sufficient
variable {H : History V} {order : List (Transaction V)} (hu : H.UniqueAppends)
  (hc : H.Coherent) (hperm : order.Perm H.transactions)
  (hord : order.Pairwise fun a b => ¬ H.Constrains b.index a.index)
include hu hc hperm hord

/-- Run in that order, a key's values come as its longest read has them. -/
theorem versions_in_order {key : String} {versions : List V}
    (ho : H.versionOrder.get? key = some versions) :
    versions.Pairwise fun a b =>
      (appendsTo key (order.map Transaction.ops).flatten).idxOf a <
        (appendsTo key (order.map Transaction.ops).flatten).idxOf b := by
  have hfinal : (appendsTo key (order.map Transaction.ops).flatten).Nodup :=
    (order_unique hperm hu).sublist (appendsTo_sublist key _)
  -- the final list has two values in order when it has them as a sublist
  have hlt : ∀ a b, [a, b].Sublist (appendsTo key (order.map Transaction.ops).flatten) →
      (appendsTo key (order.map Transaction.ops).flatten).idxOf a <
        (appendsTo key (order.map Transaction.ops).flatten).idxOf b := by
    intro a b hab
    have hpair := (pairwise_idxOf hfinal).sublist hab
    exact (List.pairwise_cons.mp hpair).1 b (List.mem_singleton_self b)
  have htrans : IsTrans V fun a b => (appendsTo key (order.map Transaction.ops).flatten).idxOf a <
      (appendsTo key (order.map Transaction.ops).flatten).idxOf b :=
    ⟨fun _ _ _ => Nat.lt_trans⟩
  refine List.isChain_iff_pairwise.mp (isChain_of_neighbours fun before a b after hab => ?_)
  refine hlt a b ?_
  obtain ⟨t, ht, hta⟩ := hc.appended key versions ho a (by rw [hab]; simp)
  obtain ⟨s, hs, hsb⟩ := hc.appended key versions ho b (by rw [hab]; simp)
  obtain ⟨o₁, o₂, hsplit⟩ := List.append_of_mem (hperm.mem_iff.mpr hs)
  have hflat : appendsTo key (order.map Transaction.ops).flatten =
      appendsTo key (o₁.map Transaction.ops).flatten ++
        (appendsTo key s.ops ++ appendsTo key (o₂.map Transaction.ops).flatten) := by
    rw [hsplit, List.map_append, List.map_cons, List.flatten_append, List.flatten_cons,
      appendsTo_append, appendsTo_append]
  rw [hflat]
  by_cases hts : t.index = s.index
  · -- appended by one transaction, in its program order
    obtain rfl := H.index_inj ht hs hts
    have hsub : [a, b].Sublist versions := by
      rw [hab]
      exact ((List.Sublist.refl [a, b]).append (List.nil_sublist after)).trans
        (List.sublist_append_right before _)
    have hown := (hsub.filter fun v => decide (v ∈ appendsTo key t.ops)).trans
      (hc.programOrder t ht key versions ho)
    rw [List.filter_eq_self.mpr] at hown
    · exact (hown.trans (List.sublist_append_left _ _)).trans (List.sublist_append_right _ _)
    · intro v hv
      refine decide_eq_true (mem_appendsTo.mpr ?_)
      rcases List.mem_cons.mp hv with rfl | hv
      · exact hta
      · rw [List.mem_singleton.mp hv]
        exact hsb
  · -- appended by two: the dependency puts the first before the second
    have hdep : H.Constrains t.index s.index :=
      .inl ⟨hts, .ww key versions a b ho (mem_zip_tail.mpr ⟨before, after, hab⟩)
        (appender_eq hu ht hta) (appender_eq hu hs hsb)⟩
    have hbefore := mem_before hperm hord hsplit ht hdep
    have hain : a ∈ appendsTo key (o₁.map Transaction.ops).flatten :=
      mem_appendsTo.mpr (List.mem_flatten.mpr ⟨t.ops, List.mem_map_of_mem hbefore, hta⟩)
    have hbin : b ∈ appendsTo key s.ops ++ appendsTo key (o₂.map Transaction.ops).flatten :=
      List.mem_append_left _ (mem_appendsTo.mpr hsb)
    exact (List.singleton_sublist.mpr hain).append (List.singleton_sublist.mpr hbin)

/-- Run in that order, a read holds exactly what was appended before it. -/
theorem mem_read_iff {o₁ o₂ : List (Transaction V)} {t : Transaction V} {pre post : List (Op V)}
    {key : String} {r : List V} (hsplit : order = o₁ ++ t :: o₂)
    (hops : t.ops = pre ++ .read key r :: post) (v : V) :
    v ∈ r ↔ v ∈ appendsTo key ((o₁.map Transaction.ops).flatten ++ pre) := by
  have ht : t ∈ H.transactions := hperm.mem_iff.mp (by rw [hsplit]; simp)
  have hr : History.Reads t key r := by
    rw [History.Reads, hops]
    simp
  obtain ⟨versions, ho, _⟩ := H.versionOrder_longest ht hr
  have hpre := hc.prefixes t ht key r versions hr ho
  have hnodup := hc.nodup key versions ho
  rw [appendsTo_append, List.mem_append]
  constructor
  · intro hv
    obtain ⟨s, hs, hsv⟩ := hc.appended key versions ho v (hpre.subset hv)
    by_cases hst : s.index = t.index
    · obtain rfl := H.index_inj hs ht hst
      exact .inr ((hc.ownAppends s hs pre key r post hops v hsv).mp hv)
    · have hdep : H.Constrains s.index t.index :=
        .inl ⟨hst, .wr key t r v ht rfl hr hv (appender_eq hu hs hsv)⟩
      have hbefore := mem_before hperm hord hsplit hs hdep
      exact .inl (mem_appendsTo.mpr (List.mem_flatten.mpr ⟨s.ops, List.mem_map_of_mem hbefore, hsv⟩))
  · rintro (hv | hv)
    · obtain ⟨ops, hmem, hva⟩ := List.mem_flatten.mp (mem_appendsTo.mp hv)
      obtain ⟨s, hsmem, rfl⟩ := List.mem_map.mp hmem
      have hs : s ∈ H.transactions := hperm.mem_iff.mp (by rw [hsplit]; simp [hsmem])
      have hnot : ¬ H.Constrains t.index s.index := by
        rw [hsplit] at hord
        exact (List.pairwise_append.mp hord).2.2 s hsmem t (List.mem_cons_self ..)
      have hne : t.index ≠ s.index := by
        intro hts
        obtain rfl := H.index_inj ht hs hts
        have hnd := order_index_nodup hperm
        rw [hsplit, List.map_append, List.map_cons] at hnd
        exact (List.nodup_append.mp hnd).2.2 _ (List.mem_map_of_mem hsmem) _
          (List.mem_cons_self ..) rfl
      -- unseen, it would be a later version or an unread one: a constraint either way
      by_contra hvr
      by_cases hvo : v ∈ versions
      · refine hnot (.inl ⟨hne, .rw key versions t r v ho ht rfl hr ?_ (appender_eq hu hs hva)⟩)
        rw [later_read hpre hnodup]
        obtain ⟨rest, rfl⟩ := hpre
        rw [List.drop_left]
        exact (List.mem_append.mp hvo).resolve_left hvr
      · exact hnot (.inr ⟨hne, key, versions, ho, ⟨t, ht, rfl, r, hr⟩, s, hs, rfl, v, hva, hvo⟩)
    · have hown : History.Appends t key v := by
        rw [History.Appends, hops]
        exact List.mem_append_left _ (mem_appendsTo.mp hv)
      exact (hc.ownAppends t ht pre key r post hops v hown).mpr hv

theorem order_runs : SeriallyRuns (order.map Transaction.ops) := by
  rw [seriallyRuns_iff]
  intro before key r after hflat
  obtain ⟨L₁, l, L₂, pre, post, hL, hl, rfl⟩ := flatten_split hflat
  obtain ⟨o₁, o₂', rfl, rfl, ho₂⟩ := List.map_eq_append_iff.mp hL
  obtain ⟨t, o₂, rfl, rfl, rfl⟩ := List.map_eq_cons_iff.mp ho₂
  have ht : t ∈ H.transactions := hperm.mem_iff.mp (by simp)
  have hr : History.Reads t key r := by
    rw [History.Reads, hl]
    simp
  obtain ⟨versions, ho, _⟩ := H.versionOrder_longest ht hr
  have hfinal : (appendsTo key ((o₁ ++ t :: o₂).map Transaction.ops).flatten).Nodup :=
    (order_unique hperm hu).sublist (appendsTo_sublist key _)
  have hsofar : appendsTo key ((o₁.map Transaction.ops).flatten ++ pre) <+:
      appendsTo key ((o₁ ++ t :: o₂).map Transaction.ops).flatten := by
    refine ⟨appendsTo key (.read key r :: post ++ (o₂.map Transaction.ops).flatten), ?_⟩
    rw [← appendsTo_append, List.map_append, List.map_cons, List.flatten_append, List.flatten_cons,
      hl]
    simp
  -- both lists have the same values, in the order of the key's final list
  have hsame := (List.perm_ext_iff_of_nodup
    ((hc.nodup key versions ho).sublist (hc.prefixes t ht key r versions hr ho).sublist)
    (hfinal.sublist hsofar.sublist)).mpr (mem_read_iff hu hc hperm hord rfl hl)
  refine hsame.eq_of_pairwise ?_
    ((versions_in_order hu hc hperm hord ho).sublist
      (hc.prefixes t ht key r versions hr ho).sublist)
    ((pairwise_idxOf hfinal).sublist hsofar.sublist)
  intro a b _ _ hab hba
  exact absurd (Nat.lt_trans hab hba) (Nat.lt_irrefl _)

end Sufficient

/-! ### The verdict compared -/

/-- **Serializability.** With unique appends, it is coherence and no cycle among all
constraints. -/
theorem serializable_iff {H : History V} (hu : H.UniqueAppends) :
    H.Serializable ↔ H.Coherent ∧ Acyclic H.Constrains := by
  constructor
  · rintro ⟨order, hperm, hrun⟩
    have hplaced := order_placed hperm hu hrun
    exact ⟨hplaced.coherent (order_all hperm),
      Theory.acyclic_of_rank _ fun _ _ huv => hplaced.constrains_forward huv⟩
  · rintro ⟨hc, ha⟩
    have ha' : Acyclic fun t u : Transaction V => H.Constrains t.index u.index :=
      fun t ht => ha t.index (ht.lift Transaction.index fun _ _ h => h)
    obtain ⟨order, hperm, hord⟩ := ha'.topological H.transactions
    exact ⟨order, hperm, order_runs hu hc hperm hord⟩

/-- **When a passing verdict is right.** The check's `ok` means serializable exactly
when acyclic inferred dependencies come with coherent reads and no cycle through the
dependencies on unread appends. -/
theorem check_ok_serializable_iff (H : History V) (hu : H.UniqueAppends) :
    (∀ r, checkSerializable H = .ok r → r.ok = true → H.Serializable) ↔
      (Acyclic H.Depends → H.Coherent ∧ Acyclic H.Constrains) := by
  obtain ⟨r, hr, hok⟩ := checkSerializable_spec H
  rw [← hok, ← serializable_iff hu]
  constructor
  · intro h
    exact h r hr
  · intro h r' hr' hok'
    rw [hr] at hr'
    cases hr'
    exact h hok'

/-- Two transactions that each miss the other's append. -/
def writeSkew : History Nat :=
  .recordAll [([.read "x" [], .append "y" 1], 0), ([.read "y" [], .append "x" 2], 1)]

theorem check_ok_serializable_iff_writeSkew :
    (∀ r, checkSerializable writeSkew = .ok r → r.ok = true → writeSkew.Serializable) ↔
      (Acyclic writeSkew.Depends → writeSkew.Coherent ∧ Acyclic writeSkew.Constrains) :=
  check_ok_serializable_iff writeSkew (by decide)

/-- The write skew passes the check, and no serial order explains it. -/
theorem writeSkew_passes_unserializable :
    writeSkew.UniqueAppends ∧ (∃ r, checkSerializable writeSkew = .ok r ∧ r.ok = true) ∧
      ¬ writeSkew.Serializable := by
  have hu : writeSkew.UniqueAppends := by decide
  refine ⟨hu, ?_, fun hs => ?_⟩
  · obtain ⟨r, hr, hok⟩ := checkSerializable_spec writeSkew
    refine ⟨r, hr, hok.mpr (Theory.acyclic_of_rank id fun u v huv => ?_)⟩
    obtain ⟨e, he, _⟩ := writeSkew.mem_edges.mpr huv.2
    have hnone : writeSkew.edges = [] := by decide
    rw [hnone] at he
    cases he
  · -- each transaction read a key to which the other made an append nobody read
    have h01 : writeSkew.Unread 0 1 := ⟨by decide, "x", [], by decide,
      ⟨⟨0, 0, [.read "x" [], .append "y" 1]⟩, by decide, rfl, [], by decide⟩,
      ⟨1, 1, [.read "y" [], .append "x" 2]⟩, by decide, rfl, 2, by decide, by decide⟩
    have h10 : writeSkew.Unread 1 0 := ⟨by decide, "y", [], by decide,
      ⟨⟨1, 1, [.read "y" [], .append "x" 2]⟩, by decide, rfl, [], by decide⟩,
      ⟨0, 0, [.read "x" [], .append "y" 1]⟩, by decide, rfl, 1, by decide, by decide⟩
    exact ((serializable_iff hu).mp hs).2 0 (.tail (.single (.inr h01)) (.inr h10))

end Simloom
