import Simloom.World.Reachable
import Simloom.Theory.Response

/-! The listener table and the servers.

A server is listed when it is made, and its address is taken until then. `SimServer.close` takes
out what is listed under its address, which need not be itself: a server that is closed twice takes
out the one that has been bound to the address in between (`table_matches_iff`). -/
namespace Simloom
open Theory
namespace World
variable {w w' : World}

/-- At its address a server is found exactly while it is not closed. -/
def Matches (w : World) : Prop :=
  ∀ id s, w.servers[id]? = some s → (w.listener s.address = some id ↔ s.closed = false)

/-- If the server is closed already, no other is listed at its address. -/
def Spared (w : World) (id : ServerId) : Prop :=
  ∀ s, w.servers[id]? = some s → s.closed = true →
    ∀ t ∈ w.servers, t.address = s.address → t.listed = false

instance (w : World) (id : ServerId) : Decidable (w.Spared id) :=
  decidable_of_iff ((w.servers[id]?).all fun s => !s.closed || w.servers.all fun t =>
      t.address != s.address || !t.listed) (by
    simp only [Option.all_eq_true, Spared, Bool.or_eq_true, Bool.not_eq_true', List.all_eq_true,
      bne_iff_ne]
    refine forall₂_congr fun s _ => ⟨fun h hc t ht ha => ?_, fun h => ?_⟩
    · exact (h.resolve_left (by simp [hc]) t ht).resolve_left (fun hne => hne ha)
    · by_cases hc : s.closed = true
      · exact .inr fun t ht => or_iff_not_imp_left.mpr fun hne => h hc t ht (not_not.mp hne)
      · exact .inl (by simpa using hc))

/-- A server that the step closes is `Spared`. -/
def SparesListeners (w : World) : Event → Prop
  | .act (.closeServer id) => w.Spared id
  | _ => True

instance (w : World) (e : Event) : Decidable (w.SparesListeners e) := by
  unfold SparesListeners
  split <;> infer_instance

/-! ### At most one listener at an address -/

def OneListed (w : World) : Prop :=
  ∀ (i j : ServerId) (s t : Server), w.servers[i]? = some s → w.servers[j]? = some t →
    s.listed = true → t.listed = true → s.address = t.address → i = j

/-- The flags of a server agree. -/
def Paired (w : World) : Prop :=
  ∀ (id : ServerId) (s : Server), w.servers[id]? = some s → s.listed = !s.closed

/-- The lookup finds what is listed. -/
theorem OneListed.listener_iff (h : w.OneListed) {id : ServerId} {s : Server}
    (hs : w.servers[id]? = some s) : w.listener s.address = some id ↔ s.listed = true := by
  obtain ⟨hlt, rfl⟩ := List.getElem?_eq_some_iff.mp hs
  unfold listener
  rw [List.findIdx?_eq_some_iff_getElem]
  constructor
  · rintro ⟨_, hp, -⟩
    exact ((Bool.and_eq_true _ _).mp hp).1
  · refine fun hlisted => ⟨hlt, by simp [hlisted], fun j hji hp => ?_⟩
    simp only [Bool.and_eq_true, beq_iff_eq] at hp
    have hj : j < w.servers.length := Nat.lt_trans hji hlt
    exact Nat.ne_of_lt hji (h j id _ _ (List.getElem?_eq_getElem hj) hs hp.1 hlisted hp.2)

theorem OneListed.matches_iff (h : w.OneListed) : w.Matches ↔ w.Paired := by
  refine forall₃_congr fun id s hs => ?_
  rw [h.listener_iff hs]
  cases s.listed <;> cases s.closed <;> simp

/-! ### Closing a server -/

/-- The server is closed, and nothing is listed at its address. -/
theorem closeServer_servers {id : ServerId} {s : Server} (hs : w.servers[id]? = some s) (i : ServerId) :
    (w.closeServer id).servers[i]? = (w.servers[i]?).map fun t =>
      {t with listed := t.listed && t.address != s.address, closed := t.closed || i == id} := by
  unfold closeServer
  rw [hs]
  simp only [List.getElem?_map, List.getElem?_modify]
  cases w.servers[i]? with
  | none => rfl
  | some t =>
    by_cases hid : id = i
    · by_cases ha : t.address = s.address <;> simp [hid, ha]
    · have hne : (i == id) = false := by simpa using Ne.symm hid
      by_cases ha : t.address = s.address
      · simp [hid, hne, ha]
      · have hna : (t.address != s.address) = true := by simpa using ha
        simp [hid, hne, ha, hna]

/-- No server is listed anew. -/
theorem closeServer_listed {id i : ServerId} {t : Server}
    (ht : (w.closeServer id).servers[i]? = some t) :
    ∃ u, w.servers[i]? = some u ∧ u.address = t.address ∧ (t.listed = true → u.listed = true) ∧
      (u.closed = true → t.closed = true) := by
  cases hs : w.servers[id]? with
  | none =>
    have hsame : w.closeServer id = w := by
      unfold closeServer
      rw [hs]
    exact ⟨t, hsame ▸ ht, rfl, fun h => h, fun h => h⟩
  | some s =>
    rw [closeServer_servers hs] at ht
    obtain ⟨u, hu, rfl⟩ := Option.map_eq_some_iff.mp ht
    exact ⟨u, hu, rfl, fun h => ((Bool.and_eq_true _ _).mp h).1, fun h => by simp [h]⟩

theorem closeServer_one (h : w.OneListed) (id : ServerId) : (w.closeServer id).OneListed := by
  intro i j s t hs ht hls hlt ha
  obtain ⟨u, hu, hau, hlu, -⟩ := closeServer_listed hs
  obtain ⟨v, hv, hav, hlv, -⟩ := closeServer_listed ht
  exact h i j u v hu hv (hlu hls) (hlv hlt) (by rw [hau, hav, ha])

theorem closeServer_paired {id : ServerId} (hone : w.OneListed) (h : w.Paired)
    (hspared : w.Spared id) : (w.closeServer id).Paired := by
  intro i t ht
  cases hs : w.servers[id]? with
  | none =>
    unfold closeServer at ht
    rw [hs] at ht
    exact h i t ht
  | some s =>
    rw [closeServer_servers hs] at ht
    obtain ⟨u, hu, rfl⟩ := Option.map_eq_some_iff.mp ht
    have hflags := h i u hu
    by_cases hid : i = id
    · obtain rfl : s = u := Option.some.inj (hs.symm.trans (hid ▸ hu))
      simp [hid]
    · -- another server at the address is closed already
      have hgone : u.address = s.address → u.listed = false := fun ha => by
        cases hc : s.closed with
        | true => exact hspared s hs hc u (List.mem_of_getElem? hu) ha
        | false =>
          have hlisted : s.listed = true := by rw [h id s hs, hc]; rfl
          cases hl : u.listed with
          | false => rfl
          | true => exact absurd (hone i id u s hu hs hl hlisted ha) hid
      have hne : (i == id) = false := by simpa using hid
      by_cases ha : u.address = s.address
      · have := hgone ha
        simp_all
      · simp [hne, ha, hflags]

/-- A closed server that is not spared takes a serving one out. -/
theorem closeServer_unpaired {id : ServerId} (h : w.Paired) (hnot : ¬ w.Spared id) :
    ¬ (w.closeServer id).Paired := by
  intro hafter
  unfold Spared at hnot
  push Not at hnot
  obtain ⟨s, hs, hc, t, ht, ha, hl⟩ := hnot
  obtain ⟨i, hi⟩ := List.getElem?_of_mem ht
  have hopen : t.closed = false := by
    have := h i t hi
    cases hct : t.closed <;> simp_all
  have hne : (i == id) = false := by
    rw [beq_eq_false_iff_ne]
    rintro rfl
    rw [Option.some.inj (hi.symm.trans hs), hc] at hopen
    cases hopen
  have hflags := hafter i _ (by rw [closeServer_servers hs, hi]; rfl)
  simp [ha, hopen, hne] at hflags

/-- Closing other servers leaves a server spared. -/
theorem closeServer_spared {id : ServerId} (h : w.Spared id) (other : ServerId) :
    (w.closeServer other).Spared id := by
  intro s' hs' hc' t' ht' ha'
  obtain ⟨j, hj⟩ := List.getElem?_of_mem ht'
  cases ho : w.servers[other]? with
  | none =>
    unfold closeServer at hs' hj
    rw [ho] at hs' hj
    exact h s' hs' hc' t' (List.mem_of_getElem? hj) ha'
  | some o =>
    rw [closeServer_servers ho] at hs' hj
    obtain ⟨s, hs, rfl⟩ := Option.map_eq_some_iff.mp hs'
    obtain ⟨t, ht, rfl⟩ := Option.map_eq_some_iff.mp hj
    by_cases hid : id = other
    · obtain rfl : o = s := Option.some.inj (ho.symm.trans (hid ▸ hs))
      have ha : t.address = o.address := ha'
      simp [ha]
    · have hc : s.closed = true := by simpa [hid] using hc'
      have hgone : t.listed = false := h s hs hc t (List.mem_of_getElem? ht) ha'
      simp [hgone]

/-- A sweep closes servers that are listed. -/
theorem closeServers_paired {ids : List ServerId} (hone : w.OneListed) (h : w.Paired)
    (hspared : ∀ id ∈ ids, w.Spared id) : (ids.foldl closeServer w).Paired := by
  induction ids generalizing w with
  | nil => exact h
  | cons id rest ih =>
    exact ih (closeServer_one hone id) (closeServer_paired hone h (hspared id List.mem_cons_self))
      fun other hin => closeServer_spared (hspared other (List.mem_cons_of_mem _ hin)) id

theorem closeServers_one {ids : List ServerId} (hone : w.OneListed) :
    (ids.foldl closeServer w).OneListed := by
  induction ids generalizing w with
  | nil => exact hone
  | cons id rest ih => exact ih (closeServer_one hone id)

/-! ### What a step does to servers -/

/-- Servers are as they were, or one is bound to a free address, or closed, or all those of a host
are. -/
inductive Relists (w w' : World) : Event → Prop where
  | same (e : Event) (h : w'.servers = w.servers) : Relists w w' e
  | bound (address : Address) (owner : Owner)
      (hfree : ∀ s ∈ w.servers, s.listed = true → s.address ≠ address)
      (h : w'.servers = w.servers ++ [⟨address, owner, true, false⟩]) :
      Relists w w' (.act (.listen address))
  | closed (id : ServerId) (h : w'.servers = (w.closeServer id).servers) :
      Relists w w' (.act (.closeServer id))
  | swept (host : HostId) (v : World) (ids : List ServerId) (hv : v.servers = w.servers)
      (hids : ∀ id ∈ ids, ∃ s, w.servers[id]? = some s ∧ s.listed = true)
      (h : w'.servers = (ids.foldl closeServer v).servers) : Relists w w' (.act (.crash host))

theorem crash_relists {host : HostId} (hup : (w.hosts host).crashed = false) :
    Relists w (w.crash host) (.act (.crash host)) := by
  obtain ⟨hcrash, hservers, -⟩ := crash_net w host hup
  refine .swept host _ _ hservers (fun id hin => ?_) hcrash
  obtain ⟨s, hs, hp⟩ := (Option.any_eq_true _ _).mp (List.mem_filter.mp hin).2
  exact ⟨s, hs, ((Bool.and_eq_true _ _).mp hp).1⟩

theorem Does.relists {owner : Owner} {a : Act} (h : Does w owner a w') : Relists w w' (.act a) := by
  cases h with
  | createTask => exact .same _ (createTask_net w owner owner).servers
  | spawns host => exact .same _ (spawnTask_net (w.enlist host none) owner host).servers
  | crash host hup => exact crash_relists hup
  | listen address hfree => exact .bound address owner hfree rfl
  | closeServer id => exact .closed id rfl
  | dials _ _ _ _ _ _ _ _ _ hreach => exact .same _ hreach.net.servers
  | _ => exact .same _ rfl

theorem step_relists {e : Event} (h : w.step e = some w') : Relists w w' e := by
  by_cases hact : ∀ a, e ≠ .act a
  · exact .same e (step_net hact h).servers
  · obtain ⟨a, rfl⟩ := not_forall_not.mp hact
    obtain ⟨owner, _, h⟩ := Option.bind_eq_some_iff.mp h
    exact (act_does h).relists

/-! ### The invariants -/

/-- Only the servers matter. -/
theorem OneListed.same (h : w.OneListed) (hs : w'.servers = w.servers) : w'.OneListed := by
  unfold OneListed
  rwa [hs]

theorem Paired.same (h : w.Paired) (hs : w'.servers = w.servers) : w'.Paired := by
  unfold Paired
  rwa [hs]

theorem Spared.same {id : ServerId} (h : w.Spared id) (hs : w'.servers = w.servers) :
    w'.Spared id := by
  unfold Spared
  rwa [hs]

theorem Relists.oneListed {e : Event} (h : Relists w w' e) (hone : w.OneListed) : w'.OneListed := by
  cases h with
  | same _ hs => exact hone.same hs
  | closed id hs => exact (closeServer_one hone id).same hs
  | swept host v ids hv hids hs => exact (closeServers_one (hone.same hv)).same hs
  | bound address owner hfree hs =>
    intro i j s t hi hj hls hlt ha
    rw [hs] at hi hj
    rcases Response.getElem?_snoc hi with hi | ⟨rfl, rfl⟩ <;> rcases Response.getElem?_snoc hj with hj | ⟨rfl, rfl⟩
    · exact hone i j s t hi hj hls hlt ha
    · exact absurd ha (hfree s (List.mem_of_getElem? hi) hls)
    · exact absurd ha.symm (hfree t (List.mem_of_getElem? hj) hlt)
    · rfl

theorem Relists.paired {e : Event} (h : Relists w w' e) (hone : w.OneListed) (hp : w.Paired)
    (hspares : w.SparesListeners e) : w'.Paired := by
  cases h with
  | same _ hs => exact hp.same hs
  | closed id hs => exact (closeServer_paired hone hp hspares).same hs
  | swept host v ids hv hids hs =>
    refine (closeServers_paired (hone.same hv) (hp.same hv) fun id hin => ?_).same hs
    -- what is listed is not closed
    obtain ⟨s, hs, hl⟩ := hids id hin
    refine Spared.same (fun s' hs' hc => ?_) hv
    rw [Option.some.inj (hs.symm.trans hs'), hp id s' hs', hc] at hl
    cases hl
  | bound address owner hfree hs =>
    intro id s hid
    rw [hs] at hid
    rcases Response.getElem?_snoc hid with hid | ⟨-, rfl⟩
    · exact hp id s hid
    · rfl

theorem keeps_oneListed : Transition.Keeps step (fun _ _ => True) OneListed :=
  fun _ _ _ _ hone h => (step_relists h).oneListed hone

theorem keeps_paired : Transition.Keeps step SparesListeners fun w => w.OneListed ∧ w.Paired :=
  fun _ _ _ hspares h hstep => ⟨(step_relists hstep).oneListed h.1,
    (step_relists hstep).paired h.1 h.2 hspares⟩

theorem oneListed_start : start.OneListed := fun _ _ _ _ h => nomatch h

theorem paired_start : start.Paired := fun _ _ h => nomatch h

/-- The table matches the servers throughout a run exactly if no step closes a closed server at
whose address another one is listed. -/
theorem table_matches_iff {es : List Event} (hrun : Transition.run step start es = some w) :
    (∀ before later v, es = before ++ later → Transition.run step start before = some v →
      v.Matches) ↔ Transition.Along step SparesListeners start es := by
  have hone : ∀ before v, Transition.run step start before = some v → v.OneListed :=
    fun before v hv => keeps_oneListed.run (Transition.along_of_forall (fun _ _ _ => trivial) _)
      oneListed_start hv
  constructor
  · intro h
    refine Transition.along_iff.mpr fun before e later m hes hm => ?_
    obtain ⟨m', hm', hrest⟩ := Transition.run_append.mp (hes ▸ hrun)
    obtain rfl := Option.some.inj (hm.symm.trans hm')
    obtain ⟨v, hv, -⟩ := Transition.run_cons.mp hrest
    have hstep : Transition.run step start (before ++ [e]) = some v :=
      Transition.run_append.mpr ⟨m, hm, Transition.run_cons.mpr ⟨v, hv, rfl⟩⟩
    have hmatch := (hone before m hm).matches_iff.mp (h before (e :: later) m hes hm)
    have hafter := (hone _ v hstep).matches_iff.mp (h (before ++ [e]) later v (by simp [hes]) hstep)
    by_contra hnot
    cases e with
    | act a =>
      cases a with
      | closeServer id =>
        obtain ⟨_, _, hclosed⟩ := Option.bind_eq_some_iff.mp hv
        obtain rfl : m.closeServer id = v := Option.some.inj hclosed
        exact closeServer_unpaired hmatch hnot hafter
      | _ => exact hnot trivial
    | _ => exact hnot trivial
  · rintro h before later v rfl hv
    have hpaired := keeps_paired.run h.before ⟨oneListed_start, paired_start⟩ hv
    exact hpaired.1.matches_iff.mpr hpaired.2

/-- A server on a host; it is closed, and another one is bound to its address. -/
def rebind : List Event :=
  [.root, .act (.spawn 0 (some 0)), .spawned, .leave false, .pick 0, .run,
    .act (.listen (1, 80)), .act (.closeServer 0), .act (.listen (1, 80))]

theorem table_matches_rebind : (Transition.run step start rebind).isSome = true ∧
    ∀ before later v, rebind = before ++ later →
      Transition.run step start before = some v → v.Matches := by
  have hrun : Transition.run step start rebind = some _ := rfl
  exact ⟨by rw [hrun]; rfl, (table_matches_iff hrun).mpr (by decide)⟩

/-- The first server is closed again: the second one serves, and is not found. -/
theorem close_again_unlists : ∃ w s,
    Transition.run step start (rebind ++ [.act (.closeServer 0)]) = some w ∧
    w.servers[1]? = some s ∧ s.closed = false ∧ w.listener s.address = none ∧ ¬ w.Matches := by
  refine ⟨_, _, rfl, rfl, rfl, rfl, fun hmatch => ?_⟩
  have hfound := (hmatch 1 _ rfl).mpr rfl
  cases hfound

end World

end Simloom
