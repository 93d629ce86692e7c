import Simloom.Consistency.Check

/-! Serial executions, and what they say about a history recorded from one.

Executing operations from empty lists succeeds when every read is the list of what
was appended to its key before (`seriallyRuns_iff`). A history is `Placed` in an
execution when each recorded transaction has a position of its own there. Every
read is then a prefix of its key's final list, so the longest one is the version
order, and no dependency goes back (`Placed.depends_forward`). -/
namespace Simloom
open Theory (Acyclic Dict)
variable {V : Type}

/-- What the operations append to a key, in order. -/
def appendsTo (key : String) : List (Op V) → List V
  | [] => []
  | .append k v :: ops => if k = key then v :: appendsTo key ops else appendsTo key ops
  | .read _ _ :: ops => appendsTo key ops

theorem appendsTo_append (key : String) (a b : List (Op V)) :
    appendsTo key (a ++ b) = appendsTo key a ++ appendsTo key b := by
  induction a with
  | nil => rfl
  | cons op a ih =>
    cases op with
    | append k v =>
      simp only [List.cons_append, appendsTo, ih]
      split <;> rfl
    | read k r => exact ih

theorem mem_appendsTo {key : String} {ops : List (Op V)} {v : V} :
    v ∈ appendsTo key ops ↔ Op.append key v ∈ ops := by
  induction ops with
  | nil => simp [appendsTo]
  | cons op ops ih =>
    cases op with
    | append k w =>
      unfold appendsTo
      by_cases hk : k = key
      · simp [hk, ih]
      · simp [hk, ih, Ne.symm hk]
    | read k r => simp [appendsTo, ih]

theorem appendsTo_sublist (key : String) (ops : List (Op V)) :
    (appendsTo key ops).Sublist (History.appended ops) := by
  induction ops with
  | nil => exact .refl _
  | cons op ops ih =>
    cases op with
    | append k v =>
      unfold appendsTo History.appended
      split
      · exact ih.cons_cons v
      · exact ih.cons v
    | read k r => exact ih

theorem appended_append (a b : List (Op V)) :
    History.appended (a ++ b) = History.appended a ++ History.appended b := by
  induction a with
  | nil => rfl
  | cons op a ih =>
    cases op with
    | append k v => simp [History.appended, ih]
    | read k r => exact ih

/-- With no value appended twice, a value is appended at one position only. -/
theorem position_unique {full : List (List (Op V))} (hu : (History.appended full.flatten).Nodup)
    {i j : Nat} {a b : List (Op V)} {v : V} (hi : full[i]? = some a) (hj : full[j]? = some b)
    (ha : v ∈ History.appended a) (hb : v ∈ History.appended b) : i = j := by
  have hnot : ∀ {i j : Nat} {a b : List (Op V)}, full[i]? = some a → full[j]? = some b →
      v ∈ History.appended a → v ∈ History.appended b → ¬ i < j := by
    intro i j a b hi hj ha hb hij
    obtain ⟨hilen, higet⟩ := List.getElem?_eq_some_iff.mp hi
    obtain ⟨hjlen, hjget⟩ := List.getElem?_eq_some_iff.mp hj
    obtain ⟨k, hk⟩ := History.mem_appended.mp ha
    obtain ⟨k', hk'⟩ := History.mem_appended.mp hb
    rw [← List.take_append_drop j full, List.flatten_append, appended_append] at hu
    refine (List.nodup_append.mp hu).2.2 v ?_ v ?_ rfl
    · refine History.mem_appended.mpr ⟨k, List.mem_flatten.mpr ⟨a, ?_, hk⟩⟩
      rw [← higet]
      exact List.mem_take_iff_getElem.mpr ⟨i, by omega, rfl⟩
    · refine History.mem_appended.mpr ⟨k', List.mem_flatten.mpr ⟨b, ?_, hk'⟩⟩
      rw [List.drop_eq_getElem_cons hjlen, hjget]
      exact List.mem_cons_self ..
  have hij := hnot hi hj ha hb
  have hji := hnot hj hi hb ha
  omega

/-! ### The list store -/

variable [DecidableEq V]

/-- One list for each key. -/
abbrev ListStore (V : Type) := String → List V

/-- An append pushes; a read must observe the key's whole list. -/
def execOp (s : ListStore V) : Op V → Option (ListStore V)
  | .append key v => some fun k => if k = key then s k ++ [v] else s k
  | .read key observed => if s key = observed then some s else none

def execOps : ListStore V → List (Op V) → Option (ListStore V)
  | s, [] => some s
  | s, op :: ops => match execOp s op with
    | none => none
    | some s' => execOps s' ops

/-- Executing the transactions one after another from empty lists gives every read
what it recorded. -/
def SeriallyRuns (txns : List (List (Op V))) : Prop :=
  (execOps (fun _ => []) txns.flatten).isSome

instance (txns : List (List (Op V))) : Decidable (SeriallyRuns txns) :=
  inferInstanceAs (Decidable (_ = true))

/-- Every read is what was appended to its key before it. -/
def Explains (s : ListStore V) (ops : List (Op V)) : Prop :=
  ∀ pre key r post, ops = pre ++ .read key r :: post → r = s key ++ appendsTo key pre

theorem execOps_isSome_iff (s : ListStore V) (ops : List (Op V)) :
    (execOps s ops).isSome ↔ Explains s ops := by
  induction ops generalizing s with
  | nil => exact ⟨fun _ pre key r post h => by simp at h, fun _ => rfl⟩
  | cons op ops ih =>
    cases op with
    | append k v =>
      show (execOps (fun key => if key = k then s key ++ [v] else s key) ops).isSome ↔ _
      rw [ih]
      have hshift : ∀ key pre, (if key = k then s key ++ [v] else s key) ++ appendsTo key pre =
          s key ++ appendsTo key (.append k v :: pre) := by
        intro key pre
        rw [appendsTo]
        by_cases hk : key = k
        · simp [hk]
        · simp [hk, Ne.symm hk]
      constructor
      · intro h pre key r post hp
        cases pre with
        | nil => cases hp
        | cons op' pre =>
          obtain ⟨rfl, hops⟩ := List.cons.inj hp
          rw [h pre key r post hops, hshift]
      · intro h pre key r post hp
        rw [h (.append k v :: pre) key r post (by rw [hp]; rfl), hshift]
    | read k observed =>
      by_cases hk : s k = observed
      · have hexec : execOps s (.read k observed :: ops) = execOps s ops := by
          simp [execOps, execOp, hk]
        rw [hexec, ih]
        constructor
        · intro h pre key r post hp
          cases pre with
          | nil =>
            cases hp
            rw [← hk]
            exact (List.append_nil _).symm
          | cons op' pre =>
            obtain ⟨rfl, hops⟩ := List.cons.inj hp
            exact h pre key r post hops
        · exact fun h pre key r post hp => h (.read k observed :: pre) key r post (by rw [hp]; rfl)
      · have hexec : execOps s (.read k observed :: ops) = none := by
          simp [execOps, execOp, hk]
        rw [hexec]
        refine ⟨fun h => ?_, fun h => absurd ?_ hk⟩
        · cases h
        · exact ((h [] k observed ops rfl).trans (List.append_nil _)).symm

theorem seriallyRuns_iff (txns : List (List (Op V))) :
    SeriallyRuns txns ↔ ∀ pre key r post, txns.flatten = pre ++ .read key r :: post →
      r = appendsTo key pre :=
  execOps_isSome_iff _ _

/-! ### Histories placed in an execution -/

/-- The recorded transactions, at positions of their own in a serial execution that
appends no value twice. -/
structure Placed (H : History V) (full : List (List (Op V))) (pos : Nat → Nat) : Prop where
  runs : SeriallyRuns full
  unique : (History.appended full.flatten).Nodup
  placed : ∀ t ∈ H.transactions, full[pos t.index]? = some t.ops
  injective : ∀ t ∈ H.transactions, ∀ u ∈ H.transactions, pos t.index = pos u.index →
    t.index = u.index

namespace Placed
variable {H : History V} {full : List (List (Op V))} {pos : Nat → Nat} (h : Placed H full pos)
include h

/-- The execution around a recorded transaction. -/
theorem split {t : Transaction V} (ht : t ∈ H.transactions) :
    full = full.take (pos t.index) ++ t.ops :: full.drop (pos t.index + 1) := by
  obtain ⟨hlt, hget⟩ := List.getElem?_eq_some_iff.mp (h.placed t ht)
  rw [← hget, List.cons_getElem_drop_succ, List.take_append_drop]

/-- A read is what was appended before its transaction, and its own appends so far. -/
theorem read_eq {t : Transaction V} (ht : t ∈ H.transactions) {pre post : List (Op V)}
    {key : String} {r : List V} (hops : t.ops = pre ++ .read key r :: post) :
    r = appendsTo key (full.take (pos t.index)).flatten ++ appendsTo key pre := by
  rw [← appendsTo_append]
  refine (seriallyRuns_iff full).mp h.runs _ key r
    (post ++ (full.drop (pos t.index + 1)).flatten) ?_
  conv_lhs => rw [h.split ht, hops]
  simp

theorem read_prefix {t : Transaction V} (ht : t ∈ H.transactions) {key : String} {r : List V}
    (hr : History.Reads t key r) : r <+: appendsTo key full.flatten := by
  obtain ⟨pre, post, hops⟩ := List.append_of_mem hr
  rw [h.read_eq ht hops, ← appendsTo_append]
  refine ⟨appendsTo key (.read key r :: post ++ (full.drop (pos t.index + 1)).flatten), ?_⟩
  conv_rhs => rw [h.split ht, hops]
  rw [← appendsTo_append]
  simp

/-- The version order of a key begins its final list, and every read begins it. -/
theorem order_prefix {key : String} {order : List V}
    (ho : H.versionOrder.get? key = some order) : order <+: appendsTo key full.flatten := by
  obtain ⟨t, ht, hr⟩ := H.versionOrder_observed ho
  exact h.read_prefix ht hr

theorem read_prefix_order {t : Transaction V} (ht : t ∈ H.transactions) {key : String}
    {r order : List V} (hr : History.Reads t key r)
    (ho : H.versionOrder.get? key = some order) : r <+: order := by
  obtain ⟨o, ho', hlen⟩ := H.versionOrder_longest ht hr
  rw [ho] at ho'
  cases ho'
  exact List.prefix_of_prefix_length_le (h.read_prefix ht hr) (h.order_prefix ho) hlen

theorem final_nodup (key : String) : (appendsTo key full.flatten).Nodup :=
  h.unique.sublist (appendsTo_sublist key _)

theorem order_nodup {key : String} {order : List V}
    (ho : H.versionOrder.get? key = some order) : order.Nodup :=
  (h.final_nodup key).sublist (h.order_prefix ho).sublist

/-- A value of a key's list before some position was appended by an earlier one. -/
theorem position_lt {t : Transaction V} (ht : t ∈ H.transactions) {p : Nat} {key : String} {v : V}
    (hv : v ∈ appendsTo key (full.take p).flatten) (ha : v ∈ History.appended t.ops) :
    pos t.index < p := by
  obtain ⟨a, hmem, hva⟩ := List.mem_flatten.mp (mem_appendsTo.mp hv)
  obtain ⟨i, hi, hget⟩ := List.mem_take_iff_getElem.mp hmem
  have hpos : i = pos t.index := position_unique h.unique
    (List.getElem?_eq_some_iff.mpr ⟨by omega, hget⟩) (h.placed t ht)
    (History.mem_appended.mpr ⟨key, hva⟩) ha
  omega

/-- What a transaction appends to a key before a position is in the key's list there. -/
theorem mem_before {t : Transaction V} (ht : t ∈ H.transactions) {p : Nat} {key : String} {v : V}
    (hp : pos t.index < p) (ha : History.Appends t key v) :
    v ∈ appendsTo key (full.take p).flatten := by
  obtain ⟨hlen, hget⟩ := List.getElem?_eq_some_iff.mp (h.placed t ht)
  refine mem_appendsTo.mpr (List.mem_flatten.mpr ⟨t.ops, ?_, ha⟩)
  rw [← hget]
  exact List.mem_take_iff_getElem.mpr ⟨pos t.index, by omega, rfl⟩

/-- A value in a key's final list was appended to that key, by whoever appended it. -/
theorem appends_of_mem {t : Transaction V} (ht : t ∈ H.transactions) {key : String} {v : V}
    (hv : v ∈ appendsTo key full.flatten) (ha : v ∈ History.appended t.ops) :
    History.Appends t key v := by
  obtain ⟨a, hmem, hva⟩ := List.mem_flatten.mp (mem_appendsTo.mp hv)
  obtain ⟨i, hi, hget⟩ := List.mem_iff_getElem.mp hmem
  have hai : full[i]? = some a := List.getElem?_eq_some_iff.mpr ⟨hi, hget⟩
  have hpos : i = pos t.index := position_unique h.unique hai (h.placed t ht)
    (History.mem_appended.mpr ⟨key, hva⟩) ha
  rw [hpos, h.placed t ht] at hai
  rw [History.Appends, Option.some.inj hai]
  exact hva

/-- A reader is not before the appenders of what it saw. -/
theorem seen_le {t u : Transaction V} (ht : t ∈ H.transactions) (hu : u ∈ H.transactions)
    {key : String} {r : List V} {v : V} (hr : History.Reads t key r) (hv : v ∈ r)
    (ha : v ∈ History.appended u.ops) : pos u.index ≤ pos t.index := by
  obtain ⟨pre, post, hops⟩ := List.append_of_mem hr
  rw [h.read_eq ht hops] at hv
  rcases List.mem_append.mp hv with hv | hv
  · exact Nat.le_of_lt (h.position_lt hu hv ha)
  · have hown : v ∈ History.appended t.ops := by
      refine History.mem_appended.mpr ⟨key, ?_⟩
      rw [hops]
      exact List.mem_append_left _ (mem_appendsTo.mp hv)
    exact Nat.le_of_eq (position_unique h.unique (h.placed u hu) (h.placed t ht) ha hown)

/-- A reader is not after an appender to the key whose value it did not see. -/
theorem unseen_le {t u : Transaction V} (ht : t ∈ H.transactions) (hu : u ∈ H.transactions)
    {key : String} {r : List V} {v : V} (hr : History.Reads t key r) (hv : v ∉ r)
    (ha : History.Appends u key v) : pos t.index ≤ pos u.index := by
  obtain ⟨pre, post, hops⟩ := List.append_of_mem hr
  refine Nat.le_of_not_lt fun hlt => hv ?_
  rw [h.read_eq ht hops]
  exact List.mem_append_left _ (h.mem_before hu hlt ha)

/-- Along the version order positions do not decrease. -/
theorem order_le {t u : Transaction V} (ht : t ∈ H.transactions) (hu : u ∈ H.transactions)
    {key : String} {before after : List V} {a b : V}
    (ho : H.versionOrder.get? key = some (before ++ a :: b :: after))
    (ha : a ∈ History.appended t.ops) (hb : b ∈ History.appended u.ops) :
    pos t.index ≤ pos u.index := by
  have hfinal := h.order_prefix ho
  have hnodup := h.order_nodup ho
  have hbmem : b ∈ appendsTo key full.flatten := hfinal.subset (by simp)
  -- the list up to and including `u` holds `b`, hence what comes before it
  have hb' := h.mem_before hu (Nat.lt_succ_self _) (h.appends_of_mem hu hbmem hb)
  have hupto : appendsTo key (full.take (pos u.index + 1)).flatten <+:
      appendsTo key full.flatten := by
    refine ⟨appendsTo key (full.drop (pos u.index + 1)).flatten, ?_⟩
    rw [← appendsTo_append, ← List.flatten_append, List.take_append_drop]
  have hto : before ++ [a] <+: appendsTo key full.flatten :=
    List.IsPrefix.trans ⟨b :: after, by simp⟩ hfinal
  have hamem : a ∈ appendsTo key (full.take (pos u.index + 1)).flatten := by
    rcases List.prefix_or_prefix_of_prefix hto hupto with hpre | hpre
    · exact hpre.subset (by simp)
    · have hin : b ∈ before ++ [a] := hpre.subset hb'
      have hsplit : before ++ a :: b :: after = (before ++ [a]) ++ b :: after := by simp
      rw [hsplit] at hnodup
      exact absurd rfl ((List.nodup_append.mp hnodup).2.2 b hin b (List.mem_cons_self ..))
  exact Nat.le_of_lt_succ (h.position_lt ht hamem ha)

end Placed

/-! ### Dependencies go forward -/

/-- The neighbours in a list. -/
theorem mem_zip_tail {α : Type} {l : List α} {a b : α} :
    (a, b) ∈ l.zip l.tail ↔ ∃ before after, l = before ++ a :: b :: after := by
  induction l with
  | nil => simp
  | cons x l ih =>
    cases l with
    | nil => simp [List.cons_eq_append_iff]
    | cons y l =>
      rw [List.tail_cons, List.zip_cons_cons, List.mem_cons]
      rw [List.tail_cons] at ih
      rw [ih]
      constructor
      · rintro (h | ⟨before, after, h⟩)
        · obtain ⟨rfl, rfl⟩ := Prod.mk.inj h
          exact ⟨[], l, rfl⟩
        · exact ⟨x :: before, after, by rw [h]; rfl⟩
      · rintro ⟨before, after, h⟩
        cases before with
        | nil =>
          cases h
          exact .inl rfl
        | cons z before =>
          obtain ⟨_, h⟩ := List.cons.inj h
          exact .inr ⟨before, after, h⟩

/-- Setting indices leaves the other values alone. -/
theorem setIndices_of_notMem {l : List V} {v : V} (hv : v ∉ l) (n : Nat) (d : Dict V Nat) :
    ((l.zipIdx n).foldl (fun d p => d.set p.1 p.2) d).get? v = d.get? v := by
  induction l generalizing n d with
  | nil => rfl
  | cons x l ih =>
    rw [List.mem_cons, not_or] at hv
    rw [List.zipIdx_cons, List.foldl_cons, ih hv.2, Dict.get?_set_ne _ _ hv.1]

theorem setIndices_get {l : List V} (hl : l.Nodup) {i : Nat} {v : V} (h : l[i]? = some v) (n : Nat)
    (d : Dict V Nat) : ((l.zipIdx n).foldl (fun d p => d.set p.1 p.2) d).get? v = some (n + i) := by
  induction l generalizing n d i with
  | nil => cases h
  | cons x l ih =>
    obtain ⟨hx, hl⟩ := List.nodup_cons.mp hl
    rw [List.zipIdx_cons, List.foldl_cons]
    cases i with
    | zero =>
      cases h
      rw [setIndices_of_notMem hx, Dict.get?_set_self]
      rfl
    | succ i =>
      rw [ih hl h]
      congr 1
      omega

/-- In a list without repetition a value's index is its position. -/
theorem indexOf_get {l : List V} (hl : l.Nodup) {i : Nat} {v : V} (h : l[i]? = some v) :
    (History.indexOf l).get? v = some i := by
  have hget := setIndices_get hl h 0 .empty
  rw [Nat.zero_add] at hget
  exact hget

/-- What a prefix of the order did not see is the rest of it. -/
theorem later_read {order r : List V} (hr : r <+: order) (hn : order.Nodup) :
    History.later order r = order.drop r.length := by
  obtain ⟨rest, rfl⟩ := hr
  rcases List.eq_nil_or_concat r with rfl | ⟨r', v, rfl⟩
  · rfl
  · rw [List.concat_eq_append] at hn ⊢
    have hidx : (History.indexOf (r' ++ [v] ++ rest)).get? v = some r'.length :=
      indexOf_get hn (by simp)
    have hlast : (r' ++ [v]).getLast? = some v := List.getLast?_concat
    rw [History.later, History.seen, hlast]
    dsimp only
    rw [hidx, List.length_append, List.length_singleton]

namespace Placed
variable {H : History V} {full : List (List (Op V))} {pos : Nat → Nat} (h : Placed H full pos)
include h

/-- **No dependency goes back** in the execution. -/
theorem depends_forward {u v : Nat} (huv : H.Depends u v) : pos u < pos v := by
  obtain ⟨hne, hinf⟩ := huv
  suffices hle : pos u ≤ pos v by
    refine Nat.lt_of_le_of_ne hle fun heq => hne ?_
    obtain ⟨⟨t, ht, rfl⟩, s, hs, rfl⟩ := hinf.recorded
    exact h.injective t ht s hs heq
  have happ : ∀ {a : V} {i : Nat}, H.appender.get? a = some i →
      ∃ t ∈ H.transactions, t.index = i ∧ a ∈ History.appended t.ops := fun ha => by
    obtain ⟨t, ht, hi, hk⟩ := H.appender_some ha
    exact ⟨t, ht, hi, History.mem_appended.mpr hk⟩
  cases hinf with
  | ww key order a b ho hab ha hb =>
    obtain ⟨before, after, rfl⟩ := mem_zip_tail.mp hab
    obtain ⟨t, ht, rfl, hta⟩ := happ ha
    obtain ⟨s, hs, rfl, hsb⟩ := happ hb
    exact h.order_le ht hs ho hta hsb
  | wr key t observed a ht hi hr ha hw =>
    obtain ⟨s, hs, rfl, hsa⟩ := happ hw
    rw [← hi]
    exact h.seen_le ht hs hr ha hsa
  | rw key order t observed b ho ht hi hr hb hw =>
    obtain ⟨s, hs, rfl, hsb⟩ := happ hw
    rw [← hi]
    have hpre := h.read_prefix_order ht hr ho
    have hnodup := h.order_nodup ho
    rw [later_read hpre hnodup] at hb
    have hunseen : b ∉ observed := by
      intro hin
      obtain ⟨rest, rfl⟩ := hpre
      rw [List.drop_left] at hb
      exact (List.nodup_append.mp hnodup).2.2 b hin b hb rfl
    have hbmem : b ∈ appendsTo key full.flatten :=
      (h.order_prefix ho).subset (List.mem_of_mem_drop hb)
    exact h.unseen_le ht hs hr hunseen (h.appends_of_mem hs hbmem hsb)

end Placed

/-! ### No false positives -/

/-- Where the `i`-th recorded transaction stands in the execution. -/
def recordedAt {n : Nat} (recorded : List (Fin n × Int)) (i : Nat) : Nat :=
  (recorded[i]?.map fun p => p.1.val).getD 0

/-- A history recorded from an execution is placed in it. -/
theorem recordAll_placed {full : List (List (Op V))} (hrun : SeriallyRuns full)
    (hu : (History.appended full.flatten).Nodup) (recorded : List (Fin full.length × Int))
    (hn : (recorded.map Prod.fst).Nodup) :
    Placed (History.recordAll (recorded.map fun p => (full.get p.1, p.2))) full
      (recordedAt recorded) := by
  have hget : ∀ t ∈ (History.recordAll
      (recorded.map fun p => (full.get p.1, p.2))).transactions,
      ∃ p, recorded[t.index]? = some p ∧ t.ops = full.get p.1 := by
    intro t ht
    have hops := congrArg (·[t.index]?)
      (History.recordAll_ops (recorded.map fun p => (full.get p.1, p.2)))
    simp only [List.getElem?_map, History.get_index _ ht, Option.map_some] at hops
    cases hp : recorded[t.index]? with
    | none => rw [hp] at hops; cases hops
    | some p =>
      rw [hp] at hops
      exact ⟨p, rfl, Option.some.inj hops⟩
  refine ⟨hrun, hu, fun t ht => ?_, fun t ht s hs hpos => ?_⟩
  · obtain ⟨p, hp, hops⟩ := hget t ht
    rw [recordedAt, hp, hops]
    exact List.getElem?_eq_getElem p.1.isLt
  · obtain ⟨p, hp, _⟩ := hget t ht
    obtain ⟨q, hq, _⟩ := hget s hs
    rw [recordedAt, recordedAt, hp, hq] at hpos
    have hpq : p.1 = q.1 := Fin.ext hpos
    obtain ⟨hi, hgi⟩ := List.getElem?_eq_some_iff.mp hp
    obtain ⟨hj, hgj⟩ := List.getElem?_eq_some_iff.mp hq
    have hinj := (List.nodup_iff_injective_getElem.mp hn)
    have hsame : (⟨t.index, by simpa using hi⟩ : Fin (recorded.map Prod.fst).length) =
        ⟨s.index, by simpa using hj⟩ := by
      refine hinj ?_
      simp only [List.getElem_map, hgi, hgj, hpq]
    exact congrArg Fin.val hsame

/-- **No false positives.** Any transactions of a serial execution, recorded in any
order, pass the check. -/
theorem serial_history_passes (full : List (List (Op V))) (hrun : SeriallyRuns full)
    (hu : (History.appended full.flatten).Nodup) (recorded : List (Fin full.length × Int))
    (hn : (recorded.map Prod.fst).Nodup) :
    ∃ r, checkSerializable (History.recordAll (recorded.map fun p => (full.get p.1, p.2))) = .ok r ∧
      r.ok = true := by
  have hplaced := recordAll_placed hrun hu recorded hn
  obtain ⟨r, hr, hok⟩ := checkSerializable_spec
    (History.recordAll (recorded.map fun p => (full.get p.1, p.2)))
  refine ⟨r, hr, hok.mpr ?_⟩
  exact Theory.acyclic_of_rank (recordedAt recorded) fun _ _ huv => hplaced.depends_forward huv

/-- Two increments and an audit of one list. -/
def incrementsAndAudit : List (List (Op Nat)) :=
  [[.read "x" [], .append "x" 1], [.read "x" [1], .append "x" 2, .read "x" [1, 2]],
    [.read "x" [1, 2]]]

/-- The audit and the first increment, recorded in that order. -/
theorem serial_history_passes_audit :
    ∃ r, checkSerializable (History.recordAll (V := Nat)
        ([((⟨2, by decide⟩ : Fin incrementsAndAudit.length), (0 : Int)), (⟨0, by decide⟩, 1)].map
          fun p => (incrementsAndAudit.get p.1, p.2))) = .ok r ∧ r.ok = true :=
  serial_history_passes incrementsAndAudit (by decide) (by decide)
    [(⟨2, by decide⟩, 0), (⟨0, by decide⟩, 1)] (by decide)

end Simloom
