import Simloom.Consistency.Cycle
import Simloom.Consistency.History

/-! The serializability check: infer dependencies, look for a cycle.

`edges` lists what the loops add, in their order. The graph holds them without
loops and repetitions, so its edges are the relation `Depends`, and the verdict is
whether that relation is acyclic (`checkSerializable_spec`). -/
namespace Simloom
open Theory (Acyclic Dict IsCycle)

inductive Dependency where
  | ww
  | wr
  | rw
deriving DecidableEq, Repr

def Dependency.name : Dependency → String
  | .ww => "ww"
  | .wr => "wr"
  | .rw => "rw"

structure SerializabilityResult where
  ok : Bool
  cycle : List Nat
  edgeTypes : List Dependency
  message : String
deriving DecidableEq, Repr

structure Edge where
  source : Nat
  target : Nat
  kind : Dependency
deriving DecidableEq, Repr

/-! ### The graph -/

structure Graph where
  succ : Dict Nat (List Nat)
  types : Dict (Nat × Nat) Dependency

namespace Graph

def empty : Graph := ⟨.empty, .empty⟩

def add (g : Graph) (e : Edge) : Graph :=
  if e.source = e.target then g
  else match g.types.get? (e.source, e.target) with
    | some _ => g
    | none =>
      ⟨g.succ.set e.source (successors g.succ e.source ++ [e.target]),
        g.types.set (e.source, e.target) e.kind⟩

/-- The graph's edges are those added, loops aside, and each has its type. -/
structure Holds (g : Graph) (edges : List Edge) : Prop where
  succ : ∀ u v, SuccEdge g.succ u v ↔ u ≠ v ∧ ∃ e ∈ edges, e.source = u ∧ e.target = v
  types : ∀ u v, SuccEdge g.succ u v ↔ ∃ k, g.types.get? (u, v) = some k

theorem holds_empty : Holds empty [] where
  succ := fun u v => by simp [SuccEdge, successors, empty]
  types := fun u v => by simp [SuccEdge, successors, empty]

theorem Holds.add {g : Graph} {edges : List Edge} (h : Holds g edges) (e : Edge) :
    Holds (g.add e) (edges ++ [e]) := by
  have hmem : ∀ u v, (∃ e' ∈ edges ++ [e], e'.source = u ∧ e'.target = v) ↔
      (∃ e' ∈ edges, e'.source = u ∧ e'.target = v) ∨ (e.source = u ∧ e.target = v) := by
    intro u v
    simp [or_and_right, exists_or]
  unfold Graph.add
  by_cases hloop : e.source = e.target
  · rw [if_pos hloop]
    refine ⟨fun u v => ?_, h.types⟩
    rw [h.succ, hmem]
    refine and_congr_right fun hne => (or_iff_left ?_).symm
    rintro ⟨rfl, rfl⟩
    exact hne hloop
  · rw [if_neg hloop]
    cases hk : g.types.get? (e.source, e.target) with
    | some k =>
      refine ⟨fun u v => ?_, h.types⟩
      rw [h.succ, hmem]
      refine and_congr_right fun hne => ⟨.inl, fun hor => hor.elim id ?_⟩
      rintro ⟨rfl, rfl⟩
      exact ((h.succ _ _).mp ((h.types _ _).mpr ⟨k, hk⟩)).2
    | none =>
      have hsucc : ∀ u v, SuccEdge (g.succ.set e.source (successors g.succ e.source ++ [e.target]))
          u v ↔ SuccEdge g.succ u v ∨ (e.source = u ∧ e.target = v) := by
        intro u v
        unfold SuccEdge successors
        rw [Dict.get?_set]
        by_cases hu : u = e.source
        · subst hu
          simp [eq_comm]
        · simp [hu, Ne.symm hu]
      refine ⟨fun u v => ?_, fun u v => ?_⟩
      · rw [hsucc, h.succ, hmem]
        constructor
        · rintro (⟨hne, he⟩ | ⟨rfl, rfl⟩)
          · exact ⟨hne, .inl he⟩
          · exact ⟨hloop, .inr ⟨rfl, rfl⟩⟩
        · rintro ⟨hne, he | he⟩
          · exact .inl ⟨hne, he⟩
          · exact .inr he
      · rw [hsucc, h.types, Dict.get?_set]
        by_cases huv : (u, v) = (e.source, e.target)
        · obtain ⟨rfl, rfl⟩ := Prod.mk.inj huv
          simp
        · have hne : ¬ (e.source = u ∧ e.target = v) := fun he =>
            huv (Prod.ext he.1.symm he.2.symm)
          rw [if_neg huv]
          exact or_iff_left hne

theorem holds_foldl (edges : List Edge) : Holds (edges.foldl add empty) edges := by
  induction edges using List.reverseRecOn with
  | nil => exact holds_empty
  | append_singleton edges e ih =>
    rw [List.foldl_append]
    exact ih.add e

end Graph

/-! ### Inferred dependencies -/

namespace History
variable {V : Type} [DecidableEq V] (H : History V)

/-- `{v: i for i, v in enumerate(order)}`. -/
def indexOf (order : List V) : Dict V Nat :=
  order.zipIdx.foldl (fun d p => d.set p.1 p.2) .empty

/-- `last_seen + 1`: where in the order the unseen versions begin. -/
def seen (order observed : List V) : Nat :=
  match observed.getLast? with
  | none => 0
  | some v => match (indexOf order).get? v with
    | none => 0
    | some i => i + 1

/-- The versions of the order that a read did not see. -/
def later (order observed : List V) : List V := order.drop (seen order observed)

/-- An edge between the appenders of two values, where both are known. -/
def wwEdge (a b : V) : List Edge :=
  match H.appender.get? a, H.appender.get? b with
  | some u, some v => [⟨u, v, .ww⟩]
  | _, _ => []

def wwEdges (order : List V) : List Edge :=
  (order.zip order.tail).flatMap fun p => H.wwEdge p.1 p.2

/-- The edges of one read by transaction `index`. -/
def readEdges (order : List V) (index : Nat) (observed : List V) : List Edge :=
  observed.filterMap (fun v => (H.appender.get? v).map fun w => ⟨w, index, .wr⟩) ++
    (later order observed).filterMap fun v => (H.appender.get? v).map fun w => ⟨index, w, .rw⟩

def opEdges (key : String) (order : List V) (index : Nat) : Op V → List Edge
  | .append _ _ => []
  | .read k observed => if k = key then H.readEdges order index observed else []

/-- What the loops over keys, transactions and operations add. -/
def edges : List Edge :=
  H.versionOrder.entries.flatMap fun e =>
    H.wwEdges e.2 ++ H.transactions.flatMap fun t => t.ops.flatMap (H.opEdges e.1 e.2 t.index)

def graph : Graph := H.edges.foldl .add .empty

/-- The dependencies that the longest reads let one infer: the appenders of
neighbouring versions, a reader after the appenders of what it saw, and before
those of the versions it did not see. -/
inductive Infers (u v : Nat) : Prop where
  | ww (key : String) (order : List V) (a b : V) : H.versionOrder.get? key = some order →
      (a, b) ∈ order.zip order.tail → H.appender.get? a = some u → H.appender.get? b = some v →
      Infers u v
  | wr (key : String) (t : Transaction V) (observed : List V) (a : V) : t ∈ H.transactions →
      t.index = v → Reads t key observed → a ∈ observed → H.appender.get? a = some u → Infers u v
  | rw (key : String) (order : List V) (t : Transaction V) (observed : List V) (b : V) :
      H.versionOrder.get? key = some order → t ∈ H.transactions → t.index = u →
      Reads t key observed → b ∈ later order observed → H.appender.get? b = some v → Infers u v

/-- The inferred dependencies between different transactions. -/
def Depends (u v : Nat) : Prop := u ≠ v ∧ H.Infers u v

theorem mem_readEdges {order : List V} {index : Nat} {observed : List V} {u v : Nat} :
    (∃ e ∈ H.readEdges order index observed, e.source = u ∧ e.target = v) ↔
      (index = v ∧ ∃ a ∈ observed, H.appender.get? a = some u) ∨
        (index = u ∧ ∃ b ∈ later order observed, H.appender.get? b = some v) := by
  unfold readEdges
  simp only [List.mem_append, List.mem_filterMap, Option.map_eq_some_iff]
  constructor
  · rintro ⟨e, ⟨a, ha, w, hw, rfl⟩ | ⟨b, hb, w, hw, rfl⟩, rfl, rfl⟩
    · exact .inl ⟨rfl, a, ha, hw⟩
    · exact .inr ⟨rfl, b, hb, hw⟩
  · rintro (⟨rfl, a, ha, hw⟩ | ⟨rfl, b, hb, hw⟩)
    · exact ⟨⟨u, index, .wr⟩, .inl ⟨a, ha, u, hw, rfl⟩, rfl, rfl⟩
    · exact ⟨⟨index, v, .rw⟩, .inr ⟨b, hb, v, hw, rfl⟩, rfl, rfl⟩

theorem mem_wwEdges {order : List V} {u v : Nat} :
    (∃ e ∈ H.wwEdges order, e.source = u ∧ e.target = v) ↔
      ∃ a b, (a, b) ∈ order.zip order.tail ∧ H.appender.get? a = some u ∧
        H.appender.get? b = some v := by
  unfold wwEdges
  simp only [List.mem_flatMap, Prod.exists]
  constructor
  · rintro ⟨e, ⟨a, b, hab, he⟩, rfl, rfl⟩
    unfold wwEdge at he
    split at he
    next u v hu hv =>
      rw [List.mem_singleton.mp he]
      exact ⟨a, b, hab, hu, hv⟩
    next => cases he
  · rintro ⟨a, b, hab, hu, hv⟩
    refine ⟨⟨u, v, .ww⟩, ⟨a, b, hab, ?_⟩, rfl, rfl⟩
    rw [wwEdge, hu, hv]
    exact List.mem_singleton_self _

/-- The added edges are the inferred dependencies. -/
theorem mem_edges {u v : Nat} :
    (∃ e ∈ H.edges, e.source = u ∧ e.target = v) ↔ H.Infers u v := by
  constructor
  · rintro ⟨e, he, hu, hv⟩
    obtain ⟨⟨key, order⟩, hko, he⟩ := List.mem_flatMap.mp he
    have horder := Dict.mem_entries.mp hko
    rcases List.mem_append.mp he with he | he
    · obtain ⟨a, b, hab, ha, hb⟩ := H.mem_wwEdges.mp ⟨e, he, hu, hv⟩
      exact .ww key order a b horder hab ha hb
    · obtain ⟨t, ht, he⟩ := List.mem_flatMap.mp he
      obtain ⟨op, hop, he⟩ := List.mem_flatMap.mp he
      cases op with
      | append k w => cases he
      | read k observed =>
        obtain ⟨hk, he⟩ := List.mem_ite_nil_right.mp he
        subst hk
        rcases H.mem_readEdges.mp ⟨e, he, hu, hv⟩ with ⟨hi, a, ha, hw⟩ | ⟨hi, b, hb, hw⟩
        · exact .wr k t observed a ht hi hop ha hw
        · exact .rw k order t observed b horder ht hi hop hb hw
  · have hread : ∀ key order (t : Transaction V) observed, H.versionOrder.get? key = some order →
        t ∈ H.transactions → Reads t key observed →
        (∃ e ∈ H.readEdges order t.index observed, e.source = u ∧ e.target = v) →
        ∃ e ∈ H.edges, e.source = u ∧ e.target = v := by
      rintro key order t observed ho ht hr ⟨e, he, huv⟩
      refine ⟨e, List.mem_flatMap.mpr ⟨(key, order), Dict.mem_entries.mpr ho, ?_⟩, huv⟩
      refine List.mem_append_right _ (List.mem_flatMap.mpr ⟨t, ht, ?_⟩)
      refine List.mem_flatMap.mpr ⟨_, hr, ?_⟩
      rw [opEdges, if_pos rfl]
      exact he
    intro h
    cases h with
    | ww key order a b ho hab ha hb =>
      obtain ⟨e, he, huv⟩ := H.mem_wwEdges.mpr ⟨a, b, hab, ha, hb⟩
      exact ⟨e, List.mem_flatMap.mpr ⟨(key, order), Dict.mem_entries.mpr ho,
        List.mem_append_left _ he⟩, huv⟩
    | wr key t observed a ht hi hr ha hw =>
      obtain ⟨order, ho, _⟩ := H.versionOrder_longest ht hr
      exact hread key order t observed ho ht hr (H.mem_readEdges.mpr (.inl ⟨hi, a, ha, hw⟩))
    | rw key order t observed b ho ht hi hr hb hw =>
      exact hread key order t observed ho ht hr (H.mem_readEdges.mpr (.inr ⟨hi, b, hb, hw⟩))

/-- The graph's edges are the dependencies. -/
theorem graph_edge {u v : Nat} : SuccEdge H.graph.succ u v ↔ H.Depends u v := by
  rw [graph, (Graph.holds_foldl H.edges).succ, mem_edges]
  rfl

/-- Both ends of an inferred dependency are recorded. -/
theorem Infers.recorded {u v : Nat} (h : H.Infers u v) :
    (∃ t ∈ H.transactions, t.index = u) ∧ ∃ t ∈ H.transactions, t.index = v := by
  have happ : ∀ {a : V} {i : Nat}, H.appender.get? a = some i →
      ∃ t ∈ H.transactions, t.index = i := fun ha => by
    obtain ⟨t, ht, hi, _⟩ := H.appender_some ha
    exact ⟨t, ht, hi⟩
  cases h with
  | ww _ _ _ _ _ _ ha hb => exact ⟨happ ha, happ hb⟩
  | wr _ t _ _ ht hi _ _ ha => exact ⟨happ ha, t, ht, hi⟩
  | rw _ _ t _ _ _ ht hi _ _ hb => exact ⟨⟨t, ht, hi⟩, happ hb⟩

end History

/-! ### The check -/

/-- `" -> ".join(..)` of a cycle and its first node again. -/
def cyclePath (cycle : List Nat) : String :=
  " -> ".intercalate ((cycle ++ cycle.head?.toList).map toString)

def checkSerializable {V : Type} [DecidableEq V] (H : History V) :
    Except Halt SerializabilityResult :=
  if H.transactions = [] then return ⟨true, [], [], "empty history is serializable"⟩
  else do
    match ← shortestCycle H.graph.succ (H.transactions.map Transaction.index) with
    | none => return ⟨true, [], [], toString H.transactions.length ++ " transactions serializable"⟩
    | some cycle => do
      let edgeTypes ← (cycle.zip (cycle.rotate 1)).mapM (lookup H.graph.types)
      return ⟨false, cycle, edgeTypes, "serializability violation: dependency cycle " ++
        cyclePath cycle ++ " (" ++ "-".intercalate (edgeTypes.map Dependency.name) ++ ")"⟩

theorem mapM_ok {α β : Type} {f : α → Except Halt β} {l : List α} (h : ∀ a ∈ l, ∃ b, f a = .ok b) :
    ∃ bs, l.mapM f = .ok bs := by
  induction l with
  | nil => exact ⟨[], rfl⟩
  | cons a l ih =>
    obtain ⟨b, hb⟩ := h a (List.mem_cons_self ..)
    obtain ⟨bs, hbs⟩ := ih fun x hx => h x (List.mem_cons_of_mem _ hx)
    refine ⟨b :: bs, ?_⟩
    rw [List.mapM_cons, hb, hbs]
    rfl

/-- **The verdict.** The check returns, and its verdict is whether the inferred
dependencies are acyclic. -/
theorem checkSerializable_spec {V : Type} [DecidableEq V] (H : History V) :
    ∃ r, checkSerializable H = .ok r ∧ (r.ok = true ↔ Acyclic H.Depends) := by
  have hacyclic : Acyclic (SuccEdge H.graph.succ) ↔ Acyclic H.Depends :=
    ⟨fun h => h.mono fun u v => H.graph_edge.mpr, fun h => h.mono fun u v => H.graph_edge.mp⟩
  unfold checkSerializable
  by_cases hempty : H.transactions = []
  · refine ⟨_, if_pos hempty, fun _ => ?_, fun _ => rfl⟩
    -- nothing is recorded, so nothing depends on anything
    refine Theory.acyclic_of_rank id fun u v huv => ?_
    obtain ⟨⟨t, ht, _⟩, _⟩ := huv.2.recorded
    rw [hempty] at ht
    cases ht
  · rw [if_neg hempty]
    obtain ⟨r, hr, hcycle, hnone⟩ := shortestCycle_spec H.graph.succ
      (H.transactions.map Transaction.index) fun u v huv => by
        obtain ⟨⟨t, ht, hi⟩, _⟩ := (H.graph_edge.mp huv).2.recorded
        exact List.mem_map.mpr ⟨t, ht, hi⟩
    rw [hr]
    cases r with
    | none => exact ⟨_, rfl, fun _ => hacyclic.mp (hnone.mp rfl), fun _ => rfl⟩
    | some cycle =>
      have hedges := (hcycle cycle rfl).edge
      obtain ⟨types, htypes⟩ := mapM_ok (f := lookup H.graph.types)
        (l := cycle.zip (cycle.rotate 1)) fun p hp => by
          obtain ⟨k, hk⟩ := ((Graph.holds_foldl H.edges).types p.1 p.2).mp (hedges p hp)
          exact ⟨k, lookup_of_get? hk⟩
      refine ⟨_, by simp only [htypes, bind, Except.bind]; rfl, fun h => ?_, fun h => ?_⟩
      · cases h
      · exact absurd (hacyclic.mpr h) (hcycle cycle rfl).not_acyclic

end Simloom
