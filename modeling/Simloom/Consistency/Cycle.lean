import Simloom.Run.Result
import Simloom.Theory.Dict
import Simloom.Theory.Digraph
import Simloom.Theory.Loop

/-! The shortest cycle of a dependency graph.

A breadth-first search runs from each node in turn. It closes a cycle when it meets
its source again, and climbs the parents to name it; a search that cannot beat the
best cycle so far is cut short. `shortestCycle_spec` says that no lookup fails, that
what is returned is a cycle, and that `none` means there is none. -/
namespace Simloom
open Relation (TransGen)
open Theory (Acyclic Dict IsCycle Loop Yields)

def keyError : ExceptionType := ⟨"KeyError", ["LookupError", "Exception", "BaseException"]⟩

/-- `d[k]`: a missing key raises. -/
def lookup {κ α : Type} [DecidableEq κ] [ToString κ] (d : Dict κ α) (k : κ) : Except Halt α :=
  match d.get? k with
  | some a => .ok a
  | none => .error (.raised ⟨keyError, toString k⟩)

theorem lookup_of_get? {κ α : Type} [DecidableEq κ] [ToString κ] {d : Dict κ α} {k : κ} {a : α}
    (h : d.get? k = some a) : lookup d k = .ok a := by
  rw [lookup, h]

/-- The successors of a node: `succ.get(node, ())`. -/
def successors (succ : Dict Nat (List Nat)) (node : Nat) : List Nat := (succ.get? node).getD []

/-- The edges of a successor dictionary. -/
def SuccEdge (succ : Dict Nat (List Nat)) (u v : Nat) : Prop := v ∈ successors succ u

/-- The variables of one search. -/
structure Bfs where
  parent : Dict Nat Nat
  distance : Dict Nat Nat
  queue : List Nat
  found : Option (List Nat)

def Bfs.start (source : Nat) : Bfs := ⟨.empty, Dict.empty.set source 0, [source], none⟩

/-- From `node` up to the source. The path is built from its end, which leaves it in
the order that the source gets by reversing it. A chain of parents is no longer than
the distance of its start, which `fuel` exceeds. -/
def climb (parent : Dict Nat Nat) (source : Nat) : Nat → Nat → List Nat → Except Halt (List Nat)
  | 0, _, _ => .error .hung
  | fuel + 1, node, path =>
    if node = source then return node :: path
    else do
      let up ← lookup parent node
      climb parent source fuel up (node :: path)

/-- The successors of `node`, which is at distance `d`. -/
def scan (source node d : Nat) : List Nat → Bfs → Except Halt Bfs
  | [], s => return s
  | nxt :: rest, s =>
    if nxt = source then do
      let path ← climb s.parent source (d + 1) node []
      return {s with found := some path}
    else match s.distance.get? nxt with
      | some _ => scan source node d rest s
      | none => scan source node d rest {s with
          distance := s.distance.set nxt (d + 1)
          parent := s.parent.set nxt node
          queue := s.queue ++ [nxt]}

def bfsStep (succ : Dict Nat (List Nat)) (source : Nat) (best : Option (List Nat)) (s : Bfs) :
    Except Halt (Option Bfs) :=
  match s.found, s.queue with
  | none, node :: queue => do
    let d ← lookup s.distance node
    if best.any (fun b => d + 1 ≥ b.length) then return some {s with queue := queue}
    else do
      let s' ← scan source node d (successors succ node) {s with queue := queue}
      return some s'
  | _, _ => return none

/-! ### Why a search ends -/

/-- Every node that is a successor of some node. -/
def targets (succ : Dict Nat (List Nat)) : List Nat := succ.entries.flatMap Prod.snd

theorem successors_subset (succ : Dict Nat (List Nat)) (node : Nat) :
    ∀ x ∈ successors succ node, x ∈ targets succ := by
  intro x hx
  unfold successors at hx
  cases h : succ.get? node with
  | none => rw [h] at hx; cases hx
  | some l =>
    rw [h] at hx
    exact List.mem_flatMap.mpr ⟨(node, l), Dict.mem_entries.mpr h, hx⟩

/-- How many of the nodes have no distance yet. -/
def undiscovered (nodes : List Nat) (distance : Dict Nat Nat) : Nat :=
  nodes.countP fun n => (distance.get? n).isNone

theorem undiscovered_set {nodes : List Nat} {distance : Dict Nat Nat} {n : Nat} (d : Nat)
    (hn : n ∈ nodes) (h : distance.get? n = none) :
    undiscovered nodes (distance.set n d) < undiscovered nodes distance := by
  have hle : ∀ l : List Nat, undiscovered l (distance.set n d) ≤ undiscovered l distance := by
    intro l
    refine List.countP_mono_left fun x _ hx => ?_
    rw [Dict.get?_set] at hx
    split at hx
    · cases hx
    · exact hx
  obtain ⟨before, after, rfl⟩ := List.append_of_mem hn
  have hnew : undiscovered (n :: after) (distance.set n d) = undiscovered after (distance.set n d) :=
    List.countP_cons_of_neg (by simp)
  have hold : undiscovered (n :: after) distance = undiscovered after distance + 1 :=
    List.countP_cons_of_pos (by simp [h])
  have hsplit : ∀ dist, undiscovered (before ++ n :: after) dist =
      undiscovered before dist + undiscovered (n :: after) dist := fun _ => List.countP_append
  rw [hsplit, hsplit, hnew, hold]
  have := hle before
  have := hle after
  omega

/-- A scan discovers something or leaves the queue as it is. -/
theorem scan_rank (nodes : List Nat) (source node d : Nat) (rest : List Nat) (s : Bfs)
    (hsub : ∀ x ∈ rest, x ∈ nodes) : Yields (scan source node d rest s) fun s' =>
      s'.queue = s.queue ∧ s'.distance = s.distance ∨
        undiscovered nodes s'.distance < undiscovered nodes s.distance := by
  induction rest generalizing s with
  | nil => exact Theory.yields_ok (.inl ⟨rfl, rfl⟩)
  | cons nxt rest ih =>
    have hrest : ∀ x ∈ rest, x ∈ nodes := fun x hx => hsub x (List.mem_cons_of_mem _ hx)
    unfold scan
    split
    · exact Yields.bind (P := fun _ => True) (fun _ _ => trivial) fun path _ =>
        Theory.yields_ok (.inl ⟨rfl, rfl⟩)
    · split
      next => exact ih s hrest
      next hn =>
        refine (ih _ hrest).mono fun s' hs' => .inr ?_
        have hlt := undiscovered_set (d + 1) (hsub nxt (List.mem_cons_self ..)) hn
        rcases hs' with ⟨_, hd⟩ | hs'
        · rw [hd]
          exact hlt
        · exact Nat.lt_trans hs' hlt

/-- The search from `source`. -/
def search (succ : Dict Nat (List Nat)) (source : Nat) (best : Option (List Nat)) :
    Loop Halt Bfs where
  step := bfsStep succ source best
  rank := fun s => (undiscovered (targets succ) s.distance, s.queue.length)
  decreases := by
    intro s s' h
    unfold bfsStep at h
    split at h
    next node queue hf hq =>
      rw [hq]
      cases hd : lookup s.distance node with
      | error e => rw [hd] at h; cases h
      | ok d =>
        rw [hd] at h
        by_cases hb : best.any (fun b => d + 1 ≥ b.length) = true
        · have hs : some {s with queue := queue} = some s' :=
            Except.ok.inj ((if_pos hb).symm.trans h)
          rw [← Option.some.inj hs]
          exact .right _ (Nat.lt_succ_self _)
        · have hrank := scan_rank (targets succ) source node d (successors succ node)
            {s with queue := queue} (successors_subset succ node)
          have hscan := (if_neg hb).symm.trans h
          cases hs : scan source node d (successors succ node) {s with queue := queue} with
          | error e => rw [hs] at hscan; cases hscan
          | ok t =>
            rw [hs] at hscan
            rw [← Option.some.inj (Except.ok.inj hscan)]
            rcases hrank t hs with ⟨hqueue, hdist⟩ | hlt
            · rw [hqueue, hdist]
              exact .right _ (Nat.lt_succ_self _)
            · exact .left _ _ hlt
    next => cases h

/-! ### What a search knows -/

/-- Distances and parents record a walk from the source to every discovered node. -/
structure Explored (edge : Nat → Nat → Prop) (source : Nat) (s : Bfs) : Prop where
  start : s.distance.get? source = some 0
  parents : ∀ n d, s.distance.get? n = some d → n = source ∨
    ∃ m e, d = e + 1 ∧ s.distance.get? m = some e ∧ s.parent.get? n = some m ∧ edge m n
  queued : ∀ n ∈ s.queue, ∃ d, s.distance.get? n = some d
  cycle : ∀ path, s.found = some path → IsCycle edge path

theorem explored_start (edge : Nat → Nat → Prop) (source : Nat) :
    Explored edge source (.start source) where
  start := Dict.get?_set_self ..
  parents := by
    intro n d h
    rw [Bfs.start, Dict.get?_set] at h
    split at h
    · exact .inl ‹_›
    · cases h
  queued := by
    intro n hn
    rw [List.mem_singleton.mp hn]
    exact ⟨0, Dict.get?_set_self ..⟩
  cycle := fun path h => by cases h

variable {edge : Nat → Nat → Prop} {source : Nat} {s : Bfs}

/-- The climb from a discovered node is a chain of edges from the source to it. -/
theorem Explored.climb (h : Explored edge source s) (d : Nat) (n : Nat) (path : List Nat)
    (hd : s.distance.get? n = some d) :
    ∃ l, climb s.parent source (d + 1) n path = .ok (l ++ n :: path) ∧
      (l ++ [n]).head? = some source ∧ (l ++ [n]).IsChain edge := by
  induction d generalizing n path with
  | zero =>
    rcases h.parents n 0 hd with rfl | ⟨m, e, he, _⟩
    · exact ⟨[], by rw [Simloom.climb, if_pos rfl]; rfl, rfl, List.isChain_singleton _⟩
    · cases he
  | succ d ih =>
    by_cases hn : n = source
    · subst hn
      exact ⟨[], by rw [Simloom.climb, if_pos rfl]; rfl, rfl, List.isChain_singleton _⟩
    · obtain ⟨m, e, he, hm, hp, hedge⟩ := (h.parents n _ hd).resolve_left hn
      cases he
      obtain ⟨l, hl, hhead, hchain⟩ := ih m (n :: path) hm
      refine ⟨l ++ [m], ?_, ?_, ?_⟩
      · rw [Simloom.climb, if_neg hn, lookup_of_get? hp, List.append_assoc, List.singleton_append]
        exact hl
      · rw [List.head?_append, hhead]
        rfl
      · refine List.isChain_append.mpr ⟨hchain, List.isChain_singleton _, ?_⟩
        intro x hx y hy
        rw [List.getLast?_append, List.getLast?_singleton] at hx
        cases hx
        cases hy
        exact hedge

/-- A chain from the source to a node with an edge back is a cycle. -/
theorem isCycle_close {l : List Nat} {n : Nat} (hhead : (l ++ [n]).head? = some source)
    (hchain : (l ++ [n]).IsChain edge) (hedge : edge n source) : IsCycle edge (l ++ [n]) := by
  obtain ⟨t, ht⟩ : ∃ t, l ++ [n] = source :: t := List.head?_eq_some_iff.mp hhead
  refine ⟨source, t, ht, List.isChain_append.mpr ⟨hchain, List.isChain_singleton _, ?_⟩⟩
  intro x hx y hy
  rw [List.getLast?_append, List.getLast?_singleton] at hx
  cases hx
  cases hy
  exact hedge

/-- Discovering `nxt` from `node` keeps the record. -/
theorem Explored.discover (h : Explored edge source s) {node nxt d : Nat}
    (hd : s.distance.get? node = some d) (hedge : edge node nxt)
    (hn : s.distance.get? nxt = none) :
    Explored edge source {s with
      distance := s.distance.set nxt (d + 1)
      parent := s.parent.set nxt node
      queue := s.queue ++ [nxt]} := by
  have hold : ∀ m e, s.distance.get? m = some e →
      (s.distance.set nxt (d + 1)).get? m = some e := by
    intro m e hm
    have hne : m ≠ nxt := by
      rintro rfl
      rw [hn] at hm
      cases hm
    rw [Dict.get?_set_ne _ _ hne, hm]
  refine ⟨hold _ _ h.start, fun n e he => ?_, fun n hq => ?_, h.cycle⟩
  · by_cases hnn : n = nxt
    · subst hnn
      rw [Dict.get?_set_self] at he
      exact .inr ⟨node, d, (Option.some.inj he).symm, hold _ _ hd, Dict.get?_set_self .., hedge⟩
    · rw [Dict.get?_set_ne _ _ hnn] at he
      refine (h.parents n e he).imp_right fun ⟨m, e', hee, hm, hp, hm'⟩ => ?_
      exact ⟨m, e', hee, hold _ _ hm, by rw [Dict.get?_set_ne _ _ hnn, hp], hm'⟩
  · rcases List.mem_append.mp hq with hq | hq
    · obtain ⟨e, he⟩ := h.queued n hq
      exact ⟨e, hold _ _ he⟩
    · rw [List.mem_singleton.mp hq]
      exact ⟨d + 1, Dict.get?_set_self ..⟩

/-- What a scan adds: nothing is forgotten, and what is new is queued. -/
structure Grown (s s' : Bfs) : Prop where
  kept : ∀ n d, s.distance.get? n = some d → s'.distance.get? n = some d
  queue : ∀ n ∈ s.queue, n ∈ s'.queue
  fresh : ∀ n d, s'.distance.get? n = some d → s.distance.get? n = some d ∨ n ∈ s'.queue

theorem Grown.refl (s : Bfs) : Grown s s := ⟨fun _ _ h => h, fun _ h => h, fun _ _ h => .inl h⟩

theorem Grown.trans {a b c : Bfs} (h : Grown a b) (h' : Grown b c) : Grown a c where
  kept := fun n d hd => h'.kept n d (h.kept n d hd)
  queue := fun n hn => h'.queue n (h.queue n hn)
  fresh := fun n d hd => by
    rcases h'.fresh n d hd with hd | hq
    · exact (h.fresh n d hd).imp_right (h'.queue n)
    · exact .inr hq

theorem grown_discover (node d : Nat) {nxt : Nat} (hn : s.distance.get? nxt = none) :
    Grown s {s with
      distance := s.distance.set nxt (d + 1)
      parent := s.parent.set nxt node
      queue := s.queue ++ [nxt]} := by
  refine ⟨fun n e he => ?_, fun n hq => List.mem_append_left _ hq, fun n e he => ?_⟩
  · have hne : n ≠ nxt := by
      rintro rfl
      rw [hn] at he
      cases he
    rw [Dict.get?_set_ne _ _ hne, he]
  · by_cases hnn : n = nxt
    · exact .inr (List.mem_append_right _ (List.mem_singleton.mpr hnn))
    · rw [Dict.get?_set_ne _ _ hnn] at he
      exact .inl he

/-- A scan returns, keeps the record, and either closes a cycle or has discovered
every successor. -/
theorem Explored.scan (h : Explored edge source s) {node d : Nat} (rest : List Nat)
    (hd : s.distance.get? node = some d) (hedge : ∀ x ∈ rest, edge node x)
    (hf : s.found = none) :
    ∃ s', scan source node d rest s = .ok s' ∧ Explored edge source s' ∧ Grown s s' ∧
      (s'.found = none → ∀ x ∈ rest, x ≠ source ∧ ∃ e, s'.distance.get? x = some e) := by
  induction rest generalizing s with
  | nil => exact ⟨s, rfl, h, .refl s, fun _ x hx => absurd hx List.not_mem_nil⟩
  | cons nxt rest ih =>
    have hrest : ∀ x ∈ rest, edge node x := fun x hx => hedge x (List.mem_cons_of_mem _ hx)
    have hnxt := hedge nxt (List.mem_cons_self ..)
    by_cases hs : nxt = source
    · -- the source again: the climb names the cycle
      obtain ⟨l, hl, hhead, hchain⟩ := h.climb d node [] hd
      refine ⟨{s with found := some (l ++ [node])}, ?_, ⟨h.start, h.parents, h.queued, ?_⟩,
        ⟨fun _ _ h => h, fun _ h => h, fun _ _ h => .inl h⟩, fun hn => ?_⟩
      · rw [Simloom.scan, if_pos hs, hl]
        rfl
      · intro path hpath
        rw [← Option.some.inj hpath]
        exact isCycle_close hhead hchain (hs ▸ hnxt)
      · cases hn
    · cases hn : s.distance.get? nxt with
      | some e =>
        obtain ⟨s', hscan, hex, hgrown, hdisc⟩ := ih h hd hrest hf
        refine ⟨s', ?_, hex, hgrown, fun hfound x hx => ?_⟩
        · rw [Simloom.scan, if_neg hs, hn]
          exact hscan
        · rcases List.mem_cons.mp hx with rfl | hx
          · exact ⟨hs, e, hgrown.kept _ _ hn⟩
          · exact hdisc hfound x hx
      | none =>
        have hgrow := grown_discover node d hn
        obtain ⟨s', hscan, hex, hgrown, hdisc⟩ :=
          ih (h.discover hd hnxt hn) (hgrow.kept _ _ hd) hrest hf
        refine ⟨s', ?_, hex, hgrow.trans hgrown, fun hfound x hx => ?_⟩
        · rw [Simloom.scan, if_neg hs, hn]
          exact hscan
        · rcases List.mem_cons.mp hx with rfl | hx
          · exact ⟨hs, d + 1, hgrown.kept _ _ (Dict.get?_set_self ..)⟩
          · exact hdisc hfound x hx

/-- Without a cycle so far, what has left the queue leads only to discovered nodes. -/
def Closed (edge : Nat → Nat → Prop) (source : Nat) (s : Bfs) : Prop :=
  s.found = none → ∀ n d, s.distance.get? n = some d → n ∈ s.queue ∨
    ∀ x, edge n x → x ≠ source ∧ ∃ e, s.distance.get? x = some e

theorem bfsStep_spec (succ : Dict Nat (List Nat)) (source : Nat) (best : Option (List Nat))
    (s : Bfs) (h : Explored (SuccEdge succ) source s)
    (hc : best = none → Closed (SuccEdge succ) source s) :
    ∃ r, bfsStep succ source best s = .ok r ∧
      (∀ s', r = some s' → Explored (SuccEdge succ) source s' ∧
        (best = none → Closed (SuccEdge succ) source s')) ∧
      (r = none → s.found = none → s.queue = []) := by
  unfold bfsStep
  split
  next node queue hf hq =>
    obtain ⟨d, hd⟩ := h.queued node (hq ▸ List.mem_cons_self ..)
    have hpop : Explored (SuccEdge succ) source {s with queue := queue} :=
      ⟨h.start, h.parents, fun n hn => h.queued n (hq ▸ List.mem_cons_of_mem _ hn), h.cycle⟩
    rw [lookup_of_get? hd]
    by_cases hb : best.any (fun b => d + 1 ≥ b.length) = true
    · refine ⟨some {s with queue := queue}, if_pos hb, fun s' hs' => ?_, fun hr => by cases hr⟩
      rw [← Option.some.inj hs']
      refine ⟨hpop, fun hnone => ?_⟩
      rw [hnone] at hb
      cases hb
    · obtain ⟨s', hscan, hex, hgrown, hdisc⟩ :=
        hpop.scan (successors succ node) hd (fun x hx => hx) hf
      refine ⟨some s', (if_neg hb).trans (by rw [hscan]; rfl), fun t ht => ?_, fun hr => by cases hr⟩
      rw [← Option.some.inj ht]
      refine ⟨hex, fun hnone hfound n e he => ?_⟩
      -- a node is `node` itself, or was closed before, or is still queued
      by_cases hn : n = node
      · subst hn
        exact .inr fun x hx => hdisc hfound x hx
      · rcases hgrown.fresh n e he with he | hqueue
        · rcases hc hnone hf n e he with hqueue | hclosed
          · rw [hq] at hqueue
            exact .inl (hgrown.queue n ((List.mem_cons.mp hqueue).resolve_left hn))
          · refine .inr fun x hx => (hclosed x hx).imp_right fun ⟨e', he'⟩ => ?_
            exact ⟨e', hgrown.kept x e' he'⟩
        · exact .inl hqueue
  next hend =>
    refine ⟨none, rfl, fun s' hs' => ?_, fun _ hf => ?_⟩
    · cases hs'
    cases hq : s.queue with
    | nil => rfl
    | cons node queue => exact (hend node queue hf hq).elim

/-- **One search.** It returns; what it finds is a cycle, and if it may look
everywhere and finds nothing then its source is on no cycle. -/
theorem search_spec (succ : Dict Nat (List Nat)) (source : Nat) (best : Option (List Nat)) :
    ∃ s, (search succ source best).run (.start source) = .ok s ∧
      (∀ path, s.found = some path → IsCycle (SuccEdge succ) path) ∧
      (best = none → s.found = none → ¬ TransGen (SuccEdge succ) source source) := by
  have hstart : best = none → Closed (SuccEdge succ) source (.start source) := by
    intro _ _ n d hd
    rw [Bfs.start, Dict.get?_set] at hd
    split at hd
    next hn => exact .inl (List.mem_singleton.mpr hn)
    next => cases hd
  obtain ⟨s, hrun, ⟨hex, hclosed⟩, hend⟩ := (search succ source best).run_total
    (fun s => Explored (SuccEdge succ) source s ∧
      (best = none → Closed (SuccEdge succ) source s))
    (fun s hs => by
      obtain ⟨r, hr, hkeep, _⟩ := bfsStep_spec succ source best s hs.1 hs.2
      exact ⟨r, hr, hkeep⟩) (.start source) ⟨explored_start _ source, hstart⟩
  refine ⟨s, hrun, hex.cycle, fun hnone hfound hcycle => ?_⟩
  obtain ⟨r, hr, _, hstop⟩ := bfsStep_spec succ source best s hex hclosed
  have hstep : bfsStep succ source best s = .ok none := hend
  have hqueue : s.queue = [] := hstop (Except.ok.inj (hr.symm.trans hstep)) hfound
  have hall : ∀ n d, s.distance.get? n = some d → ∀ x, SuccEdge succ n x →
      x ≠ source ∧ ∃ e, s.distance.get? x = some e := fun n d hd =>
    (hclosed hnone hfound n d hd).resolve_left (by rw [hqueue]; exact List.not_mem_nil)
  have hreach : ∀ x, TransGen (SuccEdge succ) source x →
      x ≠ source ∧ ∃ e, s.distance.get? x = some e := by
    intro x hx
    induction hx with
    | single h => exact hall _ _ hex.start _ h
    | tail _ h ih =>
      obtain ⟨_, e, he⟩ := ih
      exact hall _ _ he _ h
  exact (hreach source hcycle).1 rfl

/-! ### Every source -/

def shortestFrom (succ : Dict Nat (List Nat)) :
    List Nat → Option (List Nat) → Except Halt (Option (List Nat))
  | [], best => return best
  | source :: rest, best => do
    let s ← (search succ source best).run (.start source)
    match s.found with
    | some path =>
      if best.all (fun b => path.length < b.length) then
        if path.length = 2 then return some path else shortestFrom succ rest (some path)
      else shortestFrom succ rest best
    | none => shortestFrom succ rest best

def shortestCycle (succ : Dict Nat (List Nat)) (nodes : List Nat) :
    Except Halt (Option (List Nat)) :=
  shortestFrom succ nodes none

theorem shortestFrom_cons {succ : Dict Nat (List Nat)} {source : Nat} {best : Option (List Nat)}
    {s : Bfs} (h : (search succ source best).run (.start source) = .ok s) (rest : List Nat) :
    shortestFrom succ (source :: rest) best = match s.found with
      | some path =>
        if best.all (fun b => path.length < b.length) = true then
          if path.length = 2 then .ok (some path) else shortestFrom succ rest (some path)
        else shortestFrom succ rest best
      | none => shortestFrom succ rest best := by
  rw [shortestFrom, h]
  rfl

theorem shortestFrom_spec (succ : Dict Nat (List Nat)) (nodes : List Nat)
    (best : Option (List Nat)) (hbest : ∀ b, best = some b → IsCycle (SuccEdge succ) b) :
    ∃ r, shortestFrom succ nodes best = .ok r ∧
      (∀ c, r = some c → IsCycle (SuccEdge succ) c) ∧
      (r = none → best = none ∧ ∀ n ∈ nodes, ¬ TransGen (SuccEdge succ) n n) := by
  induction nodes generalizing best with
  | nil => exact ⟨best, rfl, hbest, fun hr => ⟨hr, fun n hn => absurd hn List.not_mem_nil⟩⟩
  | cons source rest ih =>
    obtain ⟨s, hrun, hcycle, hnone⟩ := search_spec succ source best
    rw [shortestFrom_cons hrun]
    cases hf : s.found with
    | some path =>
      have hpath := hcycle path hf
      dsimp only
      by_cases hb : best.all (fun b => path.length < b.length) = true
      · rw [if_pos hb]
        by_cases hlen : path.length = 2
        · refine ⟨some path, if_pos hlen, fun c hc => ?_, fun hr => by cases hr⟩
          rw [← Option.some.inj hc]
          exact hpath
        · obtain ⟨r, hr, hcyc, hno⟩ := ih (some path) fun b h => Option.some.inj h ▸ hpath
          refine ⟨r, (if_neg hlen).trans hr, hcyc, fun h => ?_⟩
          cases (hno h).1
      · rw [if_neg hb]
        obtain ⟨r, hr, hcyc, hno⟩ := ih best hbest
        refine ⟨r, hr, hcyc, fun h => ?_⟩
        rw [(hno h).1] at hb
        exact absurd rfl hb
    | none =>
      obtain ⟨r, hr, hcyc, hno⟩ := ih best hbest
      refine ⟨r, hr, hcyc, fun h => ?_⟩
      obtain ⟨hbn, hrest⟩ := hno h
      refine ⟨hbn, fun n hn => ?_⟩
      rcases List.mem_cons.mp hn with rfl | hn
      · exact hnone hbn hf
      · exact hrest n hn

/-- **The cycle search decides acyclicity.** If every node with an edge out is searched
from, it returns a cycle of the graph or, exactly when there is none, `none`. -/
theorem shortestCycle_spec (succ : Dict Nat (List Nat)) (nodes : List Nat)
    (hnodes : ∀ u v, SuccEdge succ u v → u ∈ nodes) :
    ∃ r, shortestCycle succ nodes = .ok r ∧ (∀ c, r = some c → IsCycle (SuccEdge succ) c) ∧
      (r = none ↔ Acyclic (SuccEdge succ)) := by
  obtain ⟨r, hr, hcycle, hnone⟩ := shortestFrom_spec succ nodes none fun b h => by cases h
  refine ⟨r, hr, hcycle, fun h n hn => ?_, fun h => ?_⟩
  · obtain ⟨v, hv, _⟩ := TransGen.head'_iff.mp hn
    exact (hnone h).2 n (hnodes n v hv) hn
  · cases r with
    | none => rfl
    | some c => exact absurd h (hcycle c rfl).not_acyclic

end Simloom
