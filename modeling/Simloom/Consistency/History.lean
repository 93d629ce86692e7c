import Mathlib.Data.List.Range
import Simloom.Run.Result
import Simloom.Theory.Dict

/-! Histories of list-append transactions, and what the checker recovers from one.

A value is appended to a key, or a key's whole list is read. The longest read of a
key gives its version order, and every value remembers who appended it. -/
namespace Simloom
open Theory (Dict)

inductive Op (V : Type) where
  | append (key : String) (value : V)
  | read (key : String) (observed : List V)
deriving DecidableEq, Repr

structure Transaction (V : Type) where
  index : Nat
  process : Int
  ops : List (Op V)
deriving DecidableEq, Repr

/-- Transactions in completion order, each indexed by its place. -/
structure History (V : Type) where
  transactions : List (Transaction V)
  indexed : transactions.map Transaction.index = List.range transactions.length

namespace History
variable {V : Type}

def empty : History V := ⟨[], rfl⟩

def record (H : History V) (ops : List (Op V)) (process : Int) : History V where
  transactions := H.transactions ++ [⟨H.transactions.length, process, ops⟩]
  indexed := by
    rw [List.map_append, H.indexed, List.length_append, List.length_singleton, List.range_succ]
    rfl

/-- Record one transaction after another. -/
def recordAll (records : List (List (Op V) × Int)) : History V :=
  records.foldl (fun H r => H.record r.1 r.2) .empty

theorem recordAll_append (records : List (List (Op V) × Int)) (r : List (Op V) × Int) :
    recordAll (records ++ [r]) = (recordAll records).record r.1 r.2 := by
  simp [recordAll]

/-- The recorded operations, in order. -/
theorem recordAll_ops (records : List (List (Op V) × Int)) :
    (recordAll records).transactions.map Transaction.ops = records.map Prod.fst := by
  induction records using List.reverseRecOn with
  | nil => rfl
  | append_singleton records r ih => simp [recordAll_append, record, ih]

/-- The appended values, in program order. -/
def appended : List (Op V) → List V
  | [] => []
  | .append _ v :: ops => v :: appended ops
  | .read _ _ :: ops => appended ops

theorem mem_appended {ops : List (Op V)} {v : V} :
    v ∈ appended ops ↔ ∃ key, Op.append key v ∈ ops := by
  induction ops with
  | nil => simp [appended]
  | cons op ops ih =>
    cases op with
    | append key w =>
      simp only [appended, List.mem_cons, ih, Op.append.injEq]
      constructor
      · rintro (rfl | ⟨k, hk⟩)
        · exact ⟨key, .inl ⟨rfl, rfl⟩⟩
        · exact ⟨k, .inr hk⟩
      · rintro ⟨k, ⟨_, rfl⟩ | hk⟩
        · exact .inl rfl
        · exact .inr ⟨k, hk⟩
    | read key r => simp [appended, ih]

variable (H : History V)

/-- A transaction stands where its index says. -/
theorem get_index {t : Transaction V} (h : t ∈ H.transactions) :
    H.transactions[t.index]? = some t := by
  obtain ⟨i, hi, hget⟩ := List.mem_iff_getElem.mp h
  have hidx : (H.transactions.map Transaction.index)[i]? = (List.range H.transactions.length)[i]? :=
    by rw [H.indexed]
  rw [List.getElem?_map, List.getElem?_range hi, List.getElem?_eq_getElem hi, hget] at hidx
  have hti : t.index = i := Option.some.inj hidx
  rw [hti, List.getElem?_eq_getElem hi, hget]

theorem index_inj {t u : Transaction V} (ht : t ∈ H.transactions) (hu : u ∈ H.transactions)
    (h : t.index = u.index) : t = u := by
  have htu := H.get_index ht
  rw [h, H.get_index hu] at htu
  exact (Option.some.inj htu).symm

/-- The transaction read `observed` from `key`. -/
def Reads (t : Transaction V) (key : String) (observed : List V) : Prop :=
  Op.read key observed ∈ t.ops

/-- The transaction appended `v` to `key`. -/
def Appends (t : Transaction V) (key : String) (v : V) : Prop := Op.append key v ∈ t.ops

instance [DecidableEq V] (t : Transaction V) (key : String) (observed : List V) :
    Decidable (Reads t key observed) := inferInstanceAs (Decidable (_ ∈ _))

instance [DecidableEq V] (t : Transaction V) (key : String) (v : V) :
    Decidable (Appends t key v) := inferInstanceAs (Decidable (_ ∈ _))

/-! ### Version order

The first loop of the check fills two dictionaries; each is a fold of its own. -/

/-- Keep a read that is longer than what the key has. -/
def observeOp (order : Dict String (List V)) : Op V → Dict String (List V)
  | .append _ _ => order
  | .read key observed =>
    match order.get? key with
    | none => order.set key observed
    | some longest =>
      if observed.length > longest.length then order.set key observed else order

def versionOrder : Dict String (List V) :=
  (H.transactions.flatMap Transaction.ops).foldl observeOp .empty

/-- The orders kept so far are reads of their keys, and no read of a key is longer. -/
structure Longest (ops : List (Op V)) (order : Dict String (List V)) : Prop where
  observed : ∀ key o, order.get? key = some o → Op.read key o ∈ ops
  longest : ∀ key r, Op.read key r ∈ ops → ∃ o, order.get? key = some o ∧ r.length ≤ o.length

theorem Longest.step {ops : List (Op V)} {order : Dict String (List V)} (h : Longest ops order)
    (op : Op V) : Longest (ops ++ [op]) (observeOp order op) := by
  have hold : ∀ {x}, x ∈ ops → x ∈ ops ++ [op] := fun hx => List.mem_append_left _ hx
  have hnew : ∀ {x}, x ∈ ops ++ [op] → x ∈ ops ∨ x = op := fun hx =>
    (List.mem_append.mp hx).imp_right List.mem_singleton.mp
  cases op with
  | append k v =>
    refine ⟨fun key o ho => hold (h.observed key o ho), fun key r hr => ?_⟩
    rcases hnew hr with hr | hr
    · exact h.longest key r hr
    · cases hr
  | read k r =>
    have hself : Op.read k r ∈ ops ++ [Op.read k r] :=
      List.mem_append_right _ (List.mem_singleton_self _)
    -- setting the key to `r` is right when nothing kept for it is longer
    have hset : (∀ o, order.get? k = some o → o.length ≤ r.length) →
        Longest (ops ++ [Op.read k r]) (order.set k r) := by
      intro hle
      refine ⟨fun key o ho => ?_, fun key r' hr' => ?_⟩
      · rw [Dict.get?_set] at ho
        split at ho
        next hk =>
          rw [hk, ← Option.some.inj ho]
          exact hself
        next => exact hold (h.observed key o ho)
      · rw [Dict.get?_set]
        by_cases hk : key = k
        · subst hk
          refine ⟨r, if_pos rfl, ?_⟩
          rcases hnew hr' with hr' | hr'
          · obtain ⟨o, ho, hlen⟩ := h.longest key r' hr'
            exact Nat.le_trans hlen (hle o ho)
          · cases hr'
            exact Nat.le_refl _
        · rw [if_neg hk]
          rcases hnew hr' with hr' | hr'
          · exact h.longest key r' hr'
          · cases hr'
            exact absurd rfl hk
    cases hk : order.get? k with
    | none =>
      simp only [observeOp, hk]
      refine hset fun o ho => ?_
      rw [hk] at ho
      cases ho
    | some longest =>
      simp only [observeOp, hk]
      by_cases hlt : r.length > longest.length
      · rw [if_pos hlt]
        refine hset fun o ho => ?_
        rw [hk] at ho
        rw [← Option.some.inj ho]
        exact Nat.le_of_lt hlt
      · rw [if_neg hlt]
        refine ⟨fun key o ho => hold (h.observed key o ho), fun key r' hr' => ?_⟩
        rcases hnew hr' with hr' | hr'
        · exact h.longest key r' hr'
        · cases hr'
          exact ⟨longest, hk, Nat.le_of_not_lt hlt⟩

theorem longest_versionOrder :
    Longest (H.transactions.flatMap Transaction.ops) H.versionOrder := by
  have hfold : ∀ (rest done : List (Op V)) (order : Dict String (List V)), Longest done order →
      Longest (done ++ rest) (rest.foldl observeOp order) := by
    intro rest
    induction rest with
    | nil =>
      intro done order h
      rw [List.append_nil]
      exact h
    | cons op rest ih =>
      intro done order h
      have hstep := ih (done ++ [op]) (observeOp order op) (h.step op)
      rw [List.append_assoc] at hstep
      exact hstep
  refine hfold _ [] .empty ⟨fun key o ho => ?_, fun key r hr => ?_⟩
  · cases ho
  · cases hr

theorem versionOrder_observed {key : String} {o : List V} (h : H.versionOrder.get? key = some o) :
    ∃ t ∈ H.transactions, Reads t key o :=
  List.mem_flatMap.mp (H.longest_versionOrder.observed key o h)

theorem versionOrder_longest {t : Transaction V} (ht : t ∈ H.transactions) {key : String}
    {r : List V} (h : Reads t key r) :
    ∃ o, H.versionOrder.get? key = some o ∧ r.length ≤ o.length :=
  H.longest_versionOrder.longest key r (List.mem_flatMap.mpr ⟨t, ht, h⟩)

/-! ### Appenders -/

variable [DecidableEq V]

def appendOp (index : Nat) (appender : Dict V Nat) : Op V → Dict V Nat
  | .append _ v => appender.set v index
  | .read _ _ => appender

/-- Who appended each value. -/
def appender : Dict V Nat :=
  H.transactions.foldl (fun d t => t.ops.foldl (appendOp t.index) d) .empty

theorem appendOps_get (index : Nat) (ops : List (Op V)) (d : Dict V Nat) (v : V) :
    (ops.foldl (appendOp index) d).get? v =
      if v ∈ appended ops then some index else d.get? v := by
  induction ops generalizing d with
  | nil => rfl
  | cons op ops ih =>
    rw [List.foldl_cons, ih]
    cases op with
    | append key w =>
      simp only [appendOp, Dict.get?_set, appended, List.mem_cons]
      by_cases hv : v = w <;> simp [hv]
    | read key r => rfl

/-- Every entry names a transaction that appended the value. -/
theorem appender_some {v : V} {i : Nat} (h : H.appender.get? v = some i) :
    ∃ t ∈ H.transactions, t.index = i ∧ ∃ key, Appends t key v := by
  have hfold : ∀ (ts : List (Transaction V)) (d : Dict V Nat),
      (ts.foldl (fun d t => t.ops.foldl (appendOp t.index) d) d).get? v = some i →
      (∃ t ∈ ts, t.index = i ∧ ∃ key, Appends t key v) ∨ d.get? v = some i := by
    intro ts
    induction ts with
    | nil => intro d hd; exact .inr hd
    | cons t ts ih =>
      intro d hd
      rcases ih _ hd with ⟨u, hu, hi⟩ | hd
      · exact .inl ⟨u, List.mem_cons_of_mem _ hu, hi⟩
      · rw [appendOps_get] at hd
        split at hd
        next ha =>
          exact .inl ⟨t, List.mem_cons_self .., Option.some.inj hd, mem_appended.mp ha⟩
        next => exact .inr hd
  rcases hfold H.transactions .empty h with h | h
  · exact h
  · cases h

theorem appender_isSome {t : Transaction V} (ht : t ∈ H.transactions) {key : String} {v : V}
    (h : Appends t key v) : ∃ i, H.appender.get? v = some i := by
  have hkeep : ∀ (ts : List (Transaction V)) (d : Dict V Nat), (∃ i, d.get? v = some i) →
      ∃ i, (ts.foldl (fun d t => t.ops.foldl (appendOp t.index) d) d).get? v = some i := by
    intro ts
    induction ts with
    | nil => intro d hd; exact hd
    | cons u ts ih =>
      intro d hd
      refine ih _ ?_
      rw [appendOps_get]
      split
      · exact ⟨_, rfl⟩
      · exact hd
  obtain ⟨before, after, hsplit⟩ := List.append_of_mem ht
  unfold appender
  rw [hsplit, List.foldl_append, List.foldl_cons]
  refine hkeep after _ ⟨t.index, ?_⟩
  rw [appendOps_get, if_pos (mem_appended.mpr ⟨key, h⟩)]

end History

end Simloom
