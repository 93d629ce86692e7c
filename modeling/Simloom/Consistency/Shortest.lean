import Simloom.Consistency.Check

/-! The cycle that is reported is a shortest one.

A search leaves its queue in the order of the distances, and all that is discovered is
at most one edge further than the head (`Layered`). So when it meets its source again,
every node at a smaller distance has been expanded, and no closed walk through the
source is shorter. A node that is passed over is too far to be on a cycle shorter than
the best so far. -/
namespace Simloom
open Relation (TransGen)
open Theory (Acyclic Dict IsCycle Steps Yields)

variable {edge : Nat → Nat → Prop} {source node d : Nat} {best : Option (List Nat)} {s s' : Bfs}

/-! ### Climbing -/

/-- The climb passes each distance once: its nodes are distinct, and as many as the
distance says. -/
theorem Explored.climb_levels (h : Explored edge source s) (d n : Nat) (path : List Nat)
    (hd : s.distance.get? n = some d) (l : List Nat)
    (hl : Simloom.climb s.parent source (d + 1) n path = .ok (l ++ n :: path)) :
    l.length = d ∧ (l ++ [n]).Nodup ∧ ∀ x ∈ l, ∃ e, e < d ∧ s.distance.get? x = some e := by
  induction d generalizing n path l with
  | zero =>
    obtain rfl : n = source := by
      rcases h.parents n 0 hd with hn | ⟨m, e, he, _⟩
      · exact hn
      · cases he
    rw [Simloom.climb, if_pos rfl] at hl
    obtain rfl : l = [] := by simpa using Except.ok.inj hl
    exact ⟨rfl, List.nodup_singleton _, fun x hx => by cases hx⟩
  | succ d ih =>
    have hn : n ≠ source := by
      rintro rfl
      rw [h.start] at hd
      cases hd
    obtain ⟨m, e, he, hm, hp, _⟩ := (h.parents n _ hd).resolve_left hn
    cases he
    obtain ⟨l', hl', _⟩ := h.climb d m (n :: path) hm
    obtain ⟨hlen, hnodup, hlow⟩ := ih m (n :: path) hm l' hl'
    have heq : l = l' ++ [m] := by
      rw [Simloom.climb, if_neg hn, lookup_of_get? hp] at hl
      have hpath := Except.ok.inj (hl.symm.trans hl')
      have hsame : l ++ n :: path = (l' ++ [m]) ++ n :: path := by
        rw [hpath, List.append_assoc, List.singleton_append]
      exact List.append_cancel_right hsame
    subst heq
    have hlow' : ∀ x ∈ l' ++ [m], ∃ e, e < d + 1 ∧ s.distance.get? x = some e := by
      intro x hx
      rcases List.mem_append.mp hx with hx | hx
      · obtain ⟨e, he, hxe⟩ := hlow x hx
        exact ⟨e, by omega, hxe⟩
      · exact ⟨d, by omega, List.mem_singleton.mp hx ▸ hm⟩
    refine ⟨by simp [hlen], ?_, hlow'⟩
    refine List.nodup_append.mpr ⟨hnodup, List.nodup_singleton _, fun x hx y hy hxy => ?_⟩
    obtain ⟨e, he, hxe⟩ := hlow' x hx
    rw [hxy, List.mem_singleton.mp hy, hd] at hxe
    have := Option.some.inj hxe
    omega

/-! ### Layers -/

/-- A node that cannot be on a cycle shorter than the best so far. -/
def Cut (best : Option (List Nat)) (d : Nat) : Prop := ∃ b, best = some b ∧ b.length ≤ d + 1

/-- The edges out of a node at distance `d` lead to discovered nodes, at most one further. -/
def Expanded (edge : Nat → Nat → Prop) (source : Nat) (s : Bfs) (n d : Nat) : Prop :=
  ∀ x, edge n x → x ≠ source ∧ ∃ e, e ≤ d + 1 ∧ s.distance.get? x = some e

/-- The queue is in the order of the distances. -/
def Sorted (s : Bfs) : Prop :=
  s.queue.Pairwise fun a b => ∀ d e, s.distance.get? a = some d → s.distance.get? b = some e → d ≤ e

/-- A search before its next step. -/
structure Layered (edge : Nat → Nat → Prop) (source : Nat) (best : Option (List Nat)) (s : Bfs) :
    Prop where
  sorted : Sorted s
  spread : ∀ a ∈ s.queue, ∀ d, s.distance.get? a = some d → ∀ n e, s.distance.get? n = some e →
    e ≤ d + 1
  done : ∀ n d, s.distance.get? n = some d → n ∈ s.queue ∨ Cut best d ∨ Expanded edge source s n d

/-- A search that expands `node`, at distance `d`. -/
structure Scanning (edge : Nat → Nat → Prop) (source : Nat) (best : Option (List Nat))
    (node d : Nat) (s : Bfs) : Prop where
  sorted : Sorted s
  ahead : ∀ a ∈ s.queue, ∀ e, s.distance.get? a = some e → d ≤ e
  bound : ∀ n e, s.distance.get? n = some e → e ≤ d + 1
  done : ∀ n e, s.distance.get? n = some e →
    n = node ∨ n ∈ s.queue ∨ Cut best e ∨ Expanded edge source s n e

/-- A cycle through the source that is shorter than the best, and as short as any. -/
structure Shortest (edge : Nat → Nat → Prop) (source : Nat) (best : Option (List Nat))
    (path : List Nat) : Prop where
  nodup : path.Nodup
  least : ∀ k, 0 < k → Steps edge source k source → path.length ≤ k
  better : ∀ b, best = some b → path.length < b.length

theorem layered_start (edge : Nat → Nat → Prop) (source : Nat) (best : Option (List Nat)) :
    Layered edge source best (.start source) where
  sorted := List.pairwise_singleton _ _
  spread := by
    intro a _ d _ n e he
    rw [Bfs.start, Dict.get?_set] at he
    split at he
    · rw [← Option.some.inj he]
      exact Nat.zero_le _
    · cases he
  done := by
    intro n d hd
    rw [Bfs.start, Dict.get?_set] at hd
    split at hd
    next hn => exact .inl (List.mem_singleton.mpr hn)
    next => cases hd

theorem Expanded.grown {n e : Nat} (h : Expanded edge source s n e) (hg : Grown s s') :
    Expanded edge source s' n e := fun x hx =>
  (h x hx).imp_right fun ⟨f, hf, hxf⟩ => ⟨f, hf, hg.kept x f hxf⟩

/-- The head leaves the queue. -/
theorem Layered.pop {queue : List Nat} (h : Layered edge source best s)
    (hq : s.queue = node :: queue)
    (hd : s.distance.get? node = some d) :
    Scanning edge source best node d {s with queue := queue} := by
  have hsorted := h.sorted
  rw [Sorted, hq, List.pairwise_cons] at hsorted
  refine ⟨hsorted.2, fun a ha e he => hsorted.1 a ha d e hd he,
    h.spread node (hq ▸ List.mem_cons_self) d hd, fun n e he => ?_⟩
  rcases h.done n e he with hmem | hrest
  · rw [hq] at hmem
    rcases List.mem_cons.mp hmem with hn | hmem
    · exact .inl hn
    · exact .inr (.inl hmem)
  · exact .inr (.inr hrest)

namespace Scanning

/-- What is discovered joins the queue behind all that is nearer. -/
theorem discover (h : Scanning edge source best node d s) {nxt : Nat}
    (hqueued : ∀ a ∈ s.queue, ∃ e, s.distance.get? a = some e)
    (hn : s.distance.get? nxt = none) :
    Scanning edge source best node d {s with
      distance := s.distance.set nxt (d + 1)
      parent := s.parent.set nxt node
      queue := s.queue ++ [nxt]} := by
  have hgrown := grown_discover (s := s) node d hn
  have hnew : (s.distance.set nxt (d + 1)).get? nxt = some (d + 1) := Dict.get?_set_self ..
  have hold {a : Nat} (ha : a ≠ nxt) : (s.distance.set nxt (d + 1)).get? a = s.distance.get? a :=
    Dict.get?_set_ne _ _ ha
  have hne {a : Nat} (ha : a ∈ s.queue) : a ≠ nxt := by
    rintro rfl
    obtain ⟨e, he⟩ := hqueued a ha
    rw [hn] at he
    cases he
  refine ⟨?_, fun a ha e he => ?_, fun n e he => ?_, fun n e he => ?_⟩
  · refine List.pairwise_append.mpr ⟨h.sorted.imp_of_mem fun ha hb hab d' e hd' he => ?_,
      List.pairwise_singleton _ _, fun a ha b hb d' e hd' he => ?_⟩
    · exact hab d' e ((hold (hne ha)).symm.trans hd') ((hold (hne hb)).symm.trans he)
    · rw [List.mem_singleton.mp hb] at he
      have hle := h.bound a d' ((hold (hne ha)).symm.trans hd')
      rw [← Option.some.inj (hnew.symm.trans he)]
      exact hle
  · rcases List.mem_append.mp ha with ha | ha
    · exact h.ahead a ha e ((hold (hne ha)).symm.trans he)
    · rw [List.mem_singleton.mp ha] at he
      rw [← Option.some.inj (hnew.symm.trans he)]
      exact Nat.le_succ d
  · by_cases hnn : n = nxt
    · rw [hnn] at he
      exact Nat.le_of_eq (Option.some.inj (hnew.symm.trans he)).symm
    · exact h.bound n e ((hold hnn).symm.trans he)
  · by_cases hnn : n = nxt
    · exact .inr (.inl (List.mem_append_right _ (List.mem_singleton.mpr hnn)))
    · rcases h.done n e ((hold hnn).symm.trans he) with hn' | hmem | hcut | hexp
      · exact .inl hn'
      · exact .inr (.inl (List.mem_append_left _ hmem))
      · exact .inr (.inr (.inl hcut))
      · exact .inr (.inr (.inr (hexp.grown hgrown)))

/-- Below the distance of the node that closes the cycle everything was expanded, so no
closed walk through the source is as short. -/
theorem least (h : Scanning edge source best node d s) (hex : Explored edge source s)
    (hd : s.distance.get? node = some d) (hcut : ¬Cut best d) {k : Nat} (hpos : 0 < k)
    (hwalk : Steps edge source k source) : d + 1 ≤ k := by
  by_contra hlt
  refine Steps.no_return s.distance.get? d hex.start (fun a e he hed => ?_)
    hpos (by omega) hwalk
  rcases h.done a e he with rfl | hmem | ⟨b, hb, hlen⟩ | hexp
  · have := Option.some.inj (hd.symm.trans he)
    omega
  · have := h.ahead a hmem e he
    omega
  · exact absurd ⟨b, hb, by omega⟩ hcut
  · exact hexp

/-- A scan that finds nothing leaves its node expanded; one that finds a cycle finds a
shortest one. -/
theorem scan (h : Scanning edge source best node d s) (hex : Explored edge source s)
    (hd : s.distance.get? node = some d) (hcut : ¬Cut best d) (rest : List Nat)
    (hedge : ∀ x ∈ rest, edge node x) (hf : s.found = none) :
    Yields (Simloom.scan source node d rest s) fun s' =>
      (s'.found = none → Scanning edge source best node d s' ∧
        ∀ x ∈ rest, x ≠ source ∧ ∃ e, e ≤ d + 1 ∧ s'.distance.get? x = some e) ∧
      ∀ path, s'.found = some path → Shortest edge source best path := by
  induction rest generalizing s with
  | nil =>
    refine Theory.yields_ok ⟨fun _ => ⟨h, fun x hx => absurd hx List.not_mem_nil⟩, fun path hp => ?_⟩
    rw [hf] at hp
    cases hp
  | cons nxt rest ih =>
    have hrest : ∀ x ∈ rest, edge node x := fun x hx => hedge x (List.mem_cons_of_mem _ hx)
    have hnxt := hedge nxt List.mem_cons_self
    by_cases hs : nxt = source
    · -- the source again: the climb names the cycle
      obtain ⟨l, hl, _⟩ := hex.climb d node [] hd
      obtain ⟨hlen, hnodup, _⟩ := hex.climb_levels d node [] hd l hl
      rw [Simloom.scan, if_pos hs, hl]
      refine Theory.yields_ok ⟨by simp, fun path hpath => ?_⟩
      have hlength : (l ++ [node]).length = d + 1 := by simp [hlen]
      rw [← Option.some.inj hpath]
      refine ⟨hnodup, fun k hpos hwalk => ?_, fun b hb => ?_⟩
      · rw [hlength]
        exact h.least hex hd hcut hpos hwalk
      · rw [hlength]
        exact Nat.lt_of_not_le fun hle => hcut ⟨b, hb, hle⟩
    · rw [Simloom.scan, if_neg hs]
      cases hn : s.distance.get? nxt with
      | some e =>
        intro s' hs'
        obtain ⟨hnone, hsome⟩ := ih h hex hd hrest hf s' hs'
        refine ⟨fun hfound => ⟨(hnone hfound).1, fun x hx => ?_⟩, hsome⟩
        obtain ⟨t, ht, _, hgrown, _⟩ := hex.scan rest hd hrest hf
        obtain rfl := Except.ok.inj (ht.symm.trans hs')
        rcases List.mem_cons.mp hx with rfl | hx
        · exact ⟨hs, e, h.bound x e hn, hgrown.kept x e hn⟩
        · exact (hnone hfound).2 x hx
      | none =>
        intro s' hs'
        have hex' := hex.discover hd hnxt hn
        have hd' := (grown_discover (s := s) node d hn).kept _ _ hd
        obtain ⟨hnone, hsome⟩ := ih (h.discover hex.queued hn) hex' hd' hrest hf s' hs'
        refine ⟨fun hfound => ⟨(hnone hfound).1, fun x hx => ?_⟩, hsome⟩
        obtain ⟨t, ht, _, hgrown, _⟩ := hex'.scan rest hd' hrest hf
        obtain rfl := Except.ok.inj (ht.symm.trans hs')
        rcases List.mem_cons.mp hx with rfl | hx
        · exact ⟨hs, d + 1, Nat.le_refl _, hgrown.kept x (d + 1) (Dict.get?_set_self ..)⟩
        · exact (hnone hfound).2 x hx

/-- The next head is no nearer, so the layers are in order again. -/
theorem layered (h : Scanning edge source best node d s)
    (hnode : ∀ e, s.distance.get? node = some e → Cut best e ∨ Expanded edge source s node e) :
    Layered edge source best s := by
  refine ⟨h.sorted, fun a ha e he n f hf => ?_, fun n e he => ?_⟩
  · have := h.ahead a ha e he
    have := h.bound n f hf
    omega
  · rcases h.done n e he with rfl | hrest
    · exact .inr (hnode e he)
    · exact hrest

end Scanning

/-! ### One search -/

/-- What a search knows of distances: the layers while nothing is found, and that what it
finds is shortest. -/
structure Informed (edge : Nat → Nat → Prop) (source : Nat) (best : Option (List Nat)) (s : Bfs) :
    Prop where
  layered : s.found = none → Layered edge source best s
  shortest : ∀ path, s.found = some path → Shortest edge source best path

theorem Informed.closed (h : Informed edge source best s) (hnone : best = none) :
    Closed edge source s := by
  intro hfound n d hd
  rcases (h.layered hfound).done n d hd with hmem | ⟨b, hb, _⟩ | hexp
  · exact .inl hmem
  · rw [hnone] at hb
    cases hb
  · exact .inr fun x hx => (hexp x hx).imp_right fun ⟨e, _, he⟩ => ⟨e, he⟩

theorem cut_iff (d : Nat) : best.any (fun b => d + 1 ≥ b.length) = true ↔ Cut best d := by
  cases best <;> simp [Cut]

theorem bfsStep_informed (succ : Dict Nat (List Nat)) (hex : Explored (SuccEdge succ) source s)
    (h : Informed (SuccEdge succ) source best s) :
    Yields (bfsStep succ source best s) fun r => ∀ s', r = some s' →
      Informed (SuccEdge succ) source best s' := by
  unfold bfsStep
  split
  next node queue hf hq =>
    obtain ⟨d, hd⟩ := hex.queued node (hq ▸ List.mem_cons_self)
    have hpop := (h.layered hf).pop hq hd
    have hexpop : Explored (SuccEdge succ) source {s with queue := queue} :=
      ⟨hex.start, hex.parents, fun n hn => hex.queued n (hq ▸ List.mem_cons_of_mem _ hn), hex.cycle⟩
    rw [lookup_of_get? hd]
    by_cases hb : best.any (fun b => d + 1 ≥ b.length) = true
    · -- `node` is passed over
      have hcut : ∀ e, s.distance.get? node = some e →
          Cut best e ∨ Expanded (SuccEdge succ) source {s with queue := queue} node e :=
        fun e he => .inl (Option.some.inj (hd.symm.trans he) ▸ (cut_iff d).mp hb)
      intro r hr s' hs'
      obtain rfl : r = some {s with queue := queue} := (Except.ok.inj ((if_pos hb).symm.trans hr)).symm
      rw [← Option.some.inj hs']
      refine ⟨fun _ => hpop.layered hcut, fun path hpath => ?_⟩
      have hpath' : s.found = some path := hpath
      rw [hf] at hpath'
      cases hpath'
    · have hscan := hpop.scan hexpop hd (fun hc => hb ((cut_iff d).mpr hc)) (successors succ node)
        (fun x hx => hx) hf
      intro r hr s' hs'
      obtain ⟨t, ht, -⟩ := hexpop.scan (successors succ node) hd (fun x hx => hx) hf
      have hr' : r = some t := by
        have := (if_neg hb).symm.trans hr
        rw [ht] at this
        exact (Except.ok.inj this).symm
      obtain rfl : t = s' := Option.some.inj (hr'.symm.trans hs')
      obtain ⟨hnone, hsome⟩ := hscan t ht
      refine ⟨fun hfound => ?_, hsome⟩
      obtain ⟨hscanned, hall⟩ := hnone hfound
      refine hscanned.layered fun e he => .inr ?_
      have hkept : t.distance.get? node = some d := by
        obtain ⟨u, hu, -, hgrown, -⟩ := hexpop.scan (successors succ node) hd (fun x hx => hx) hf
        obtain rfl := Except.ok.inj (hu.symm.trans ht)
        exact hgrown.kept node d hd
      rw [← Option.some.inj (hkept.symm.trans he)]
      exact hall
  next =>
    intro r hr s' hs'
    rw [← Except.ok.inj hr] at hs'
    cases hs'

/-- **One search knows the shortest cycle through its source**, as long as it is shorter
than the best so far: it finds one, or all closed walks are at least as long as the best. -/
theorem search_shortest (succ : Dict Nat (List Nat)) (source : Nat) (best : Option (List Nat)) :
    Yields ((search succ source best).run (.start source)) fun s =>
      (∀ path, s.found = some path → Shortest (SuccEdge succ) source best path) ∧
      (s.found = none → ∀ k, 0 < k → Steps (SuccEdge succ) source k source →
        ∃ b, best = some b ∧ b.length ≤ k) := by
  have hinit : Explored (SuccEdge succ) source (.start source) ∧
      Informed (SuccEdge succ) source best (.start source) :=
    ⟨explored_start _ source, fun _ => layered_start _ source best, fun _ hp => by cases hp⟩
  have hspec (s : Bfs) (hs : Explored (SuccEdge succ) source s ∧
      Informed (SuccEdge succ) source best s) :=
    bfsStep_spec succ source best s hs.1 fun hnone => hs.2.closed hnone
  refine ((search succ source best).run_yields (fun s => Explored (SuccEdge succ) source s ∧
    Informed (SuccEdge succ) source best s) (fun s hs r hr s' hs' => ?_) (.start source) hinit).mono ?_
  · obtain ⟨r', hr', hkeep, _⟩ := hspec s hs
    obtain rfl := Except.ok.inj (hr'.symm.trans hr)
    exact ⟨(hkeep s' hs').1, bfsStep_informed succ hs.1 hs.2 _ hr s' hs'⟩
  · rintro s ⟨hs, hend⟩
    refine ⟨hs.2.shortest, fun hfound k hpos hwalk => ?_⟩
    obtain ⟨r, hr, -, hstop⟩ := hspec s hs
    have hqueue : s.queue = [] := hstop (Except.ok.inj (hr.symm.trans hend)) hfound
    by_contra hlonger
    refine Steps.no_return s.distance.get? k hs.1.start
      (fun a d hd hlt => ?_) hpos (Nat.le_refl k) hwalk
    rcases (hs.2.layered hfound).done a d hd with hmem | ⟨b, hb, hlen⟩ | hexp
    · rw [hqueue] at hmem
      cases hmem
    · exact absurd ⟨b, hb, by omega⟩ hlonger
    · exact hexp

/-! ### All searches -/

/-- What is known once the cycles through some nodes have been looked for. -/
structure Least (edge : Nat → Nat → Prop) (searched : List Nat) (best : Option (List Nat)) : Prop where
  nodup : ∀ b, best = some b → b.Nodup
  least : ∀ n ∈ searched, ∀ k, 0 < k → Steps edge n k n → ∃ b, best = some b ∧ b.length ≤ k

/-- A closed walk without loops has two edges or more. -/
theorem two_le_of_steps {n k : Nat} (hloop : ∀ u, ¬edge u u) (hpos : 0 < k)
    (h : Steps edge n k n) : 2 ≤ k := by
  cases h with
  | refl => exact absurd hpos (Nat.lt_irrefl _)
  | snoc hwalk hedge =>
    cases hwalk with
    | refl => exact absurd hedge (hloop n)
    | snoc _ _ => omega

/-- After the searches from `searched` come those from `nodes`: the best of all of them is
as short as any closed walk through either. -/
theorem shortestFrom_least (succ : Dict Nat (List Nat)) (hloop : ∀ u, ¬SuccEdge succ u u)
    (nodes searched : List Nat) (best : Option (List Nat))
    (h : Least (SuccEdge succ) searched best) :
    Yields (shortestFrom succ nodes best) fun r =>
      (∀ c, r = some c → c.Nodup) ∧
      ∀ n, n ∈ searched ++ nodes → ∀ k, 0 < k → Steps (SuccEdge succ) n k n →
        ∃ c, r = some c ∧ c.length ≤ k := by
  induction nodes generalizing searched best with
  | nil =>
    refine Theory.yields_ok ⟨h.nodup, fun n hn => ?_⟩
    rw [List.append_nil] at hn
    exact h.least n hn
  | cons source rest ih =>
    obtain ⟨s, hrun, -⟩ := search_spec succ source best
    obtain ⟨hfound, hnone⟩ := search_shortest succ source best s hrun
    have hlist : searched ++ source :: rest = searched ++ [source] ++ rest := by simp
    rw [shortestFrom_cons hrun, hlist]
    cases hf : s.found with
    | some path =>
      have hpath := hfound path hf
      have hbetter : best.all (fun b => path.length < b.length) = true := by
        cases best with
        | none => rfl
        | some b => exact decide_eq_true (hpath.better b rfl)
      simp only [hbetter, if_true]
      by_cases hlen : path.length = 2
      · rw [if_pos hlen]
        refine Theory.yields_ok ⟨fun c hc => Option.some.inj hc ▸ hpath.nodup, fun n _ k hpos hwalk => ?_⟩
        exact ⟨path, rfl, hlen ▸ two_le_of_steps hloop hpos hwalk⟩
      · rw [if_neg hlen]
        refine ih (searched ++ [source]) (some path)
          ⟨fun c hc => Option.some.inj hc ▸ hpath.nodup, fun n hn k hpos hwalk => ⟨path, rfl, ?_⟩⟩
        rcases List.mem_append.mp hn with hn | hn
        · obtain ⟨b, hb, hle⟩ := h.least n hn k hpos hwalk
          have := hpath.better b hb
          omega
        · rw [List.mem_singleton.mp hn] at hwalk
          exact hpath.least k hpos hwalk
    | none =>
      refine ih (searched ++ [source]) best ⟨h.nodup, fun n hn k hpos hwalk => ?_⟩
      rcases List.mem_append.mp hn with hn | hn
      · exact h.least n hn k hpos hwalk
      · rw [List.mem_singleton.mp hn] at hwalk
        exact hnone hf k hpos hwalk

/-- **The search returns a shortest cycle of a graph without loops**, its nodes distinct. -/
theorem shortestCycle_least (succ : Dict Nat (List Nat)) (nodes : List Nat)
    (hnodes : ∀ u v, SuccEdge succ u v → u ∈ nodes) (hloop : ∀ u, ¬SuccEdge succ u u) :
    Yields (shortestCycle succ nodes) fun r => ∀ c, r = some c →
      c.Nodup ∧ ∀ c', IsCycle (SuccEdge succ) c' → c.length ≤ c'.length := by
  intro r hr c hc
  have hinit : Least (SuccEdge succ) [] none :=
    ⟨by simp, fun n hn => absurd hn List.not_mem_nil⟩
  obtain ⟨hnodup, hleast⟩ := shortestFrom_least succ hloop nodes [] none hinit r hr
  refine ⟨hnodup c hc, fun c' hc' => ?_⟩
  obtain ⟨a, b, hab, hpos, hwalk⟩ := hc'.steps
  obtain ⟨c₁, hc₁, hle⟩ := hleast a (hnodes a b hab) c'.length hpos hwalk
  rw [hc] at hc₁
  exact Option.some.inj hc₁ ▸ hle

/-! ### The types of the edges -/

/-- A type comes from an edge that was added with it. -/
theorem Graph.types_foldl (edges : List Edge) {u v : Nat} {k : Dependency}
    (h : (edges.foldl Graph.add Graph.empty).types.get? (u, v) = some k) : ⟨u, v, k⟩ ∈ edges := by
  induction edges using List.reverseRecOn with
  | nil => cases h
  | append_singleton edges e ih =>
    rw [List.foldl_append, List.foldl_cons, List.foldl_nil, Graph.add] at h
    by_cases hloop : e.source = e.target
    · rw [if_pos hloop] at h
      exact List.mem_append_left _ (ih h)
    · rw [if_neg hloop] at h
      split at h
      · exact List.mem_append_left _ (ih h)
      · rw [Dict.get?_set] at h
        split at h
        next huv =>
          obtain ⟨rfl, rfl⟩ := Prod.mk.inj huv
          rw [← Option.some.inj h]
          exact List.mem_append_right _ (List.mem_singleton_self _)
        next => exact List.mem_append_left _ (ih h)

namespace History
variable {V : Type} [DecidableEq V] (H : History V)

/-- Why one transaction comes before another: as the appenders of neighbouring versions, as
an appender and a reader of what it appended, or as a reader and an appender of a version
that it did not see. -/
def Carries (k : Dependency) (u v : Nat) : Prop :=
  match k with
  | .ww => ∃ key order a b, H.versionOrder.get? key = some order ∧ (a, b) ∈ order.zip order.tail ∧
      H.appender.get? a = some u ∧ H.appender.get? b = some v
  | .wr => ∃ key t observed a, t ∈ H.transactions ∧ t.index = v ∧ Reads t key observed ∧
      a ∈ observed ∧ H.appender.get? a = some u
  | .rw => ∃ key order t observed b, H.versionOrder.get? key = some order ∧ t ∈ H.transactions ∧
      t.index = u ∧ Reads t key observed ∧ b ∈ later order observed ∧ H.appender.get? b = some v

/-- The dependencies are those of some type. -/
theorem infers_iff {u v : Nat} : H.Infers u v ↔ ∃ k, H.Carries k u v := by
  constructor
  · intro h
    cases h with
    | ww key order a b ho hab ha hb => exact ⟨.ww, key, order, a, b, ho, hab, ha, hb⟩
    | wr key t observed a ht hi hr ha hw => exact ⟨.wr, key, t, observed, a, ht, hi, hr, ha, hw⟩
    | rw key order t observed b ho ht hi hr hb hw =>
      exact ⟨.rw, key, order, t, observed, b, ho, ht, hi, hr, hb, hw⟩
  · rintro ⟨k, h⟩
    cases k with
    | ww =>
      obtain ⟨key, order, a, b, ho, hab, ha, hb⟩ := h
      exact .ww key order a b ho hab ha hb
    | wr =>
      obtain ⟨key, t, observed, a, ht, hi, hr, ha, hw⟩ := h
      exact .wr key t observed a ht hi hr ha hw
    | rw =>
      obtain ⟨key, order, t, observed, b, ho, ht, hi, hr, hb, hw⟩ := h
      exact .rw key order t observed b ho ht hi hr hb hw

/-- What the loops add has the type that it is added with. -/
theorem edges_carry {e : Edge} (he : e ∈ H.edges) : H.Carries e.kind e.source e.target := by
  obtain ⟨⟨key, order⟩, hko, he⟩ := List.mem_flatMap.mp he
  have horder : H.versionOrder.get? key = some order := Dict.mem_entries.mp hko
  rcases List.mem_append.mp he with he | he
  · obtain ⟨⟨a, b⟩, hab, he⟩ := List.mem_flatMap.mp he
    unfold wwEdge at he
    split at he
    next u v hu hv =>
      rw [List.mem_singleton.mp he]
      exact ⟨key, order, a, b, horder, hab, hu, hv⟩
    next => cases he
  · obtain ⟨t, ht, he⟩ := List.mem_flatMap.mp he
    obtain ⟨op, hop, he⟩ := List.mem_flatMap.mp he
    cases op with
    | append k w => cases he
    | read k observed =>
      obtain ⟨hk, he⟩ := List.mem_ite_nil_right.mp he
      subst hk
      rcases List.mem_append.mp he with he | he
      · obtain ⟨a, ha, he⟩ := List.mem_filterMap.mp he
        obtain ⟨w, hw, rfl⟩ := Option.map_eq_some_iff.mp he
        exact ⟨k, t, observed, a, ht, rfl, hop, ha, hw⟩
      · obtain ⟨b, hb, he⟩ := List.mem_filterMap.mp he
        obtain ⟨w, hw, rfl⟩ := Option.map_eq_some_iff.mp he
        exact ⟨k, order, t, observed, b, horder, ht, rfl, hop, hb, hw⟩

end History

theorem mapM_forall₂ {α β : Type} {f : α → Except Halt β} {l : List α} {bs : List β}
    (h : l.mapM f = .ok bs) : List.Forall₂ (fun a b => f a = .ok b) l bs := by
  induction l generalizing bs with
  | nil =>
    obtain rfl := Except.ok.inj h
    exact .nil
  | cons a l ih =>
    rw [List.mapM_cons] at h
    cases ha : f a with
    | error e => rw [ha] at h; cases h
    | ok b =>
      cases hl : l.mapM f with
      | error e => rw [ha, hl] at h; cases h
      | ok rest =>
        rw [ha, hl] at h
        obtain rfl := Except.ok.inj h
        exact .cons ha (ih hl)

theorem lookup_ok {κ α : Type} [DecidableEq κ] [ToString κ] {d : Dict κ α} {k : κ} {a : α}
    (h : lookup d k = .ok a) : d.get? k = some a := by
  unfold lookup at h
  split at h
  next hk => rw [hk, Except.ok.inj h]
  next => cases h

/-- A rejected history: what is reported is a shortest cycle of the graph, and the types are
those of its edges. -/
theorem checkSerializable_rejects {V : Type} [DecidableEq V] (H : History V)
    {r : SerializabilityResult} (h : checkSerializable H = .ok r) (hr : r.ok = false) :
    shortestCycle H.graph.succ (H.transactions.map Transaction.index) = .ok (some r.cycle) ∧
      List.Forall₂ (fun p k => H.graph.types.get? p = some k) (r.cycle.zip (r.cycle.rotate 1))
        r.edgeTypes := by
  unfold checkSerializable at h
  split at h
  · obtain rfl := Except.ok.inj h
    cases hr
  · cases hc : shortestCycle H.graph.succ (H.transactions.map Transaction.index) with
    | error e => rw [hc] at h; cases h
    | ok c =>
      rw [hc] at h
      cases c with
      | none =>
        obtain rfl := Except.ok.inj h
        cases hr
      | some cycle =>
        cases ht : (cycle.zip (cycle.rotate 1)).mapM (lookup H.graph.types) with
        | error e => simp only [ht, bind, Except.bind] at h; cases h
        | ok types =>
          simp only [ht, bind, Except.bind] at h
          obtain rfl := Except.ok.inj h
          exact ⟨rfl, (mapM_forall₂ ht).imp fun _ _ => lookup_ok⟩

/-- **The reported cycle is a shortest witness.** The search returns `none` exactly for
acyclic graphs and otherwise a shortest cycle with distinct nodes; and each edge of the
cycle that a rejected history gets is a dependency of the reported type, with no cycle of
dependencies shorter. -/
theorem reported_cycle_shortest :
    (∀ (succ : Dict Nat (List Nat)) (nodes : List Nat),
      (∀ u v, SuccEdge succ u v → u ∈ nodes) → (∀ u, ¬SuccEdge succ u u) →
      ∃ r, shortestCycle succ nodes = .ok r ∧ (r = none ↔ Acyclic (SuccEdge succ)) ∧
        ∀ c, r = some c → IsCycle (SuccEdge succ) c ∧ c.Nodup ∧
          ∀ c', IsCycle (SuccEdge succ) c' → c.length ≤ c'.length) ∧
    ∀ (V : Type) [DecidableEq V] (H : History V), ∃ r, checkSerializable H = .ok r ∧
      (r.ok = false → IsCycle H.Depends r.cycle ∧ r.cycle.Nodup ∧
        (∀ c', IsCycle H.Depends c' → r.cycle.length ≤ c'.length) ∧
        List.Forall₂ (fun p k => H.Depends p.1 p.2 ∧ H.Carries k p.1 p.2)
          (r.cycle.zip (r.cycle.rotate 1)) r.edgeTypes) := by
  have hgraph : ∀ (succ : Dict Nat (List Nat)) (nodes : List Nat),
      (∀ u v, SuccEdge succ u v → u ∈ nodes) → (∀ u, ¬SuccEdge succ u u) →
      ∃ r, shortestCycle succ nodes = .ok r ∧ (r = none ↔ Acyclic (SuccEdge succ)) ∧
        ∀ c, r = some c → IsCycle (SuccEdge succ) c ∧ c.Nodup ∧
          ∀ c', IsCycle (SuccEdge succ) c' → c.length ≤ c'.length := by
    intro succ nodes hnodes hloop
    obtain ⟨r, hr, hcycle, hnone⟩ := shortestCycle_spec succ nodes hnodes
    exact ⟨r, hr, hnone, fun c hc =>
      ⟨hcycle c hc, shortestCycle_least succ nodes hnodes hloop r hr c hc⟩⟩
  refine ⟨hgraph, fun V _ H => ?_⟩
  obtain ⟨r, hr, -⟩ := checkSerializable_spec H
  refine ⟨r, hr, fun hrejected => ?_⟩
  obtain ⟨hcycle, htypes⟩ := checkSerializable_rejects H hr hrejected
  have hsame : SuccEdge H.graph.succ = H.Depends := by
    funext u v
    exact propext H.graph_edge
  obtain ⟨c, hc, -, hshortest⟩ := hgraph H.graph.succ (H.transactions.map Transaction.index)
    (fun u v huv => by
      obtain ⟨⟨t, ht, hi⟩, _⟩ := (H.graph_edge.mp huv).2.recorded
      exact List.mem_map.mpr ⟨t, ht, hi⟩)
    fun u huu => (H.graph_edge.mp huu).1 rfl
  obtain rfl := Except.ok.inj (hc.symm.trans hcycle)
  rw [hsame] at hshortest
  obtain ⟨hiscycle, hnodup, hleast⟩ := hshortest r.cycle rfl
  refine ⟨hiscycle, hnodup, hleast, htypes.imp fun p k hk => ?_⟩
  have hcarries : H.Carries k p.1 p.2 := H.edges_carry (Graph.types_foldl H.edges hk)
  exact ⟨H.graph_edge.mp (((Graph.holds_foldl H.edges).types p.1 p.2).mpr ⟨k, hk⟩), hcarries⟩

/-- Two transactions that both append to what they read empty, and a reader of both. -/
def lostUpdate : History Nat :=
  .recordAll [([.read "x" [], .append "x" 1], 0), ([.read "x" [], .append "x" 2], 1),
    ([.read "x" [1, 2]], 2)]

/-- Two nodes and both edges between them. -/
def bothWays : Dict Nat (List Nat) := (Dict.empty.set 0 [1]).set 1 [0]

theorem bothWays_edge {u v : Nat} (h : SuccEdge bothWays u v) : u ∈ [0, 1] ∧ u ≠ v := by
  rw [SuccEdge, successors, bothWays, Dict.get?_set, Dict.get?_set] at h
  by_cases h1 : u = 1
  · rw [if_pos h1] at h
    have hv : v = 0 := List.mem_singleton.mp h
    exact ⟨by simp [h1], by omega⟩
  · rw [if_neg h1] at h
    by_cases h0 : u = 0
    · rw [if_pos h0] at h
      have hv : v = 1 := List.mem_singleton.mp h
      exact ⟨by simp [h0], by omega⟩
    · rw [if_neg h0] at h
      cases h

theorem reported_cycle_lostUpdate :
    (∃ r, shortestCycle bothWays [0, 1] = .ok r ∧ (r = none ↔ Acyclic (SuccEdge bothWays)) ∧
      ∀ c, r = some c → IsCycle (SuccEdge bothWays) c ∧ c.Nodup ∧
        ∀ c', IsCycle (SuccEdge bothWays) c' → c.length ≤ c'.length) ∧
    ∃ r, checkSerializable lostUpdate = .ok r ∧ r.ok = false ∧
      IsCycle lostUpdate.Depends r.cycle ∧ r.cycle.Nodup ∧
      (∀ c', IsCycle lostUpdate.Depends c' → r.cycle.length ≤ c'.length) ∧
      List.Forall₂ (fun p k => lostUpdate.Depends p.1 p.2 ∧ lostUpdate.Carries k p.1 p.2)
        (r.cycle.zip (r.cycle.rotate 1)) r.edgeTypes := by
  refine ⟨reported_cycle_shortest.1 bothWays [0, 1] (fun u v h => (bothWays_edge h).1)
    fun u h => (bothWays_edge h).2 rfl, ?_⟩
  obtain ⟨r, hr, hreported⟩ := reported_cycle_shortest.2 Nat lostUpdate
  have h01 : lostUpdate.Depends 0 1 := ⟨by decide, lostUpdate.infers_iff.mpr
    ⟨.ww, "x", [1, 2], 1, 2, by decide, by decide, by decide, by decide⟩⟩
  have h10 : lostUpdate.Depends 1 0 := ⟨by decide, lostUpdate.infers_iff.mpr
    ⟨.rw, "x", [1, 2], ⟨1, 1, [.read "x" [], .append "x" 2]⟩, [], 1, by decide, by decide, rfl,
      List.mem_cons_self, by decide, by decide⟩⟩
  have hrejected : r.ok = false := by
    obtain ⟨r', hr', hok⟩ := checkSerializable_spec lostUpdate
    obtain rfl := Except.ok.inj (hr.symm.trans hr')
    rw [← Bool.not_eq_true, hok]
    exact fun hacyclic => hacyclic 0 (.tail (.single h01) h10)
  exact ⟨r, hr, hrejected, hreported hrejected⟩

end Simloom
