import Simloom.World.Enrol

/-! What a crash ends.

What can act for an owner is its code that is running, its tasks that are neither done nor
crashed, and its listeners, transports and datagram endpoints. A crash made outside of its host
leaves the host nothing of these, and makes nothing (`crash_acts`). -/
namespace Simloom
open Theory
namespace World
variable {w w' : World} {host : HostId} {owner o : Owner}

/-- What can act for an owner. -/
inductive Acts (w : World) : Owner → Prop where
  | task {id : TaskId} {t : Task} (ht : w.tasks[id]? = some t) (hdone : t.done = false)
    (hcrashed : id ∉ w.crashed) : Acts w t.host
  | listener {s : Server} (hs : s ∈ w.servers) (hlisted : s.listed = true) : Acts w s.owner
  | transport {t : Transport} (ht : t ∈ w.transports) (hclosed : t.closed = false) : Acts w t.owner
  | endpoint {d : Datagram} (hd : d ∈ w.datagrams) (hclosed : d.closed = false) : Acts w d.owner
  | code {owner : Owner} {task : Option TaskId} (h : .code owner task ∈ w.stack) : Acts w owner

/-! ### Sweeps -/

/-- A sweep over indices ends what it meets, and makes nothing. -/
theorem foldl_ends {α : Type} {g : World → List α} {live : α → Bool} {own : α → Owner}
    {f : World → Nat → World}
    (hf : ∀ w id i x', (g (f w id))[i]? = some x' → ∃ x, (g w)[i]? = some x ∧
      own x' = own x ∧ (live x' = true → live x = true ∧ i ≠ id))
    {w : World} {ids : List Nat} {i : Nat} {x' : α} (hx : (g (ids.foldl f w))[i]? = some x') :
    ∃ x, (g w)[i]? = some x ∧ own x' = own x ∧
      (live x' = true → live x = true ∧ i ∉ ids) := by
  induction ids generalizing w with
  | nil => exact ⟨x', hx, rfl, fun h => ⟨h, List.not_mem_nil⟩⟩
  | cons id rest ih =>
    obtain ⟨y, hy, hown, hlive⟩ := ih hx
    obtain ⟨x, hx, hown', hlive'⟩ := hf w id i y hy
    refine ⟨x, hx, hown.trans hown', fun h => ?_⟩
    obtain ⟨hy, hrest⟩ := hlive h
    obtain ⟨hx, hne⟩ := hlive' hy
    exact ⟨hx, by simp [hne, hrest]⟩

theorem foldl_same {α β : Type} {g : World → β} {f : World → α → World}
    (hf : ∀ w x, g (f w x) = g w) (w : World) (l : List α) :
    g (l.foldl f w) = g w := by
  induction l generalizing w with
  | nil => rfl
  | cons x rest ih => exact (ih _).trans (hf w x)

theorem mem_indices {α : Type} {p : α → Bool} {l : List α} {i : Nat} {x : α} (hx : l[i]? = some x)
    (hp : p x = true) : i ∈ indices p l := by
  unfold indices
  rw [List.mem_filter, List.mem_range]
  exact ⟨(List.getElem?_eq_some_iff.mp hx).1, by rw [hx]; exact hp⟩

theorem modify_get {α : Type} {l : List α} {g : α → α} {id i : Nat} {x' : α}
    (h : (l.modify id g)[i]? = some x') :
    ∃ x, l[i]? = some x ∧ (i = id ∧ x' = g x ∨ i ≠ id ∧ x' = x) := by
  rw [List.getElem?_modify] at h
  obtain ⟨x, hx, rfl⟩ := Option.map_eq_some_iff.mp h
  refine ⟨x, hx, ?_⟩
  split
  next heq => exact .inl ⟨heq.symm, rfl⟩
  next hne => exact .inr ⟨Ne.symm hne, rfl⟩

theorem dropTransport_ends (w : World) (id i : TransportId) (t' : Transport)
    (h : (w.dropTransport id).transports[i]? = some t') : ∃ t, w.transports[i]? = some t ∧
      t'.owner = t.owner ∧ ((!t'.closed) = true → (!t.closed) = true ∧ i ≠ id) := by
  unfold dropTransport at h
  split at h
  next hnone =>
    refine ⟨t', h, rfl, fun hlive => ⟨hlive, ?_⟩⟩
    rintro rfl
    cases hnone.symm.trans h
  next =>
    obtain ⟨u, hu, hreset⟩ := modify_get h
    obtain ⟨t, ht, hdrop⟩ := modify_get hu
    have hkept : t'.owner = u.owner ∧ t'.closed = u.closed := by
      rcases hreset with ⟨_, rfl⟩ | ⟨_, rfl⟩
      · split <;> exact ⟨rfl, rfl⟩
      · exact ⟨rfl, rfl⟩
    rw [hkept.1, hkept.2]
    rcases hdrop with ⟨_, rfl⟩ | ⟨hne, rfl⟩
    · exact ⟨t, ht, rfl, nofun⟩
    · exact ⟨u, ht, rfl, fun hlive => ⟨hlive, hne⟩⟩

theorem dropDatagram_ends (w : World) (id i : DatagramId) (d' : Datagram)
    (h : (w.dropDatagram id).datagrams[i]? = some d') : ∃ d, w.datagrams[i]? = some d ∧
      d'.owner = d.owner ∧ ((!d'.closed) = true → (!d.closed) = true ∧ i ≠ id) := by
  obtain ⟨d, hd, ⟨_, rfl⟩ | ⟨hne, rfl⟩⟩ := modify_get h
  · exact ⟨d, hd, rfl, nofun⟩
  · exact ⟨d', hd, rfl, fun hlive => ⟨hlive, hne⟩⟩

theorem closeServer_ends (w : World) (id i : ServerId) (s' : Server)
    (h : (w.closeServer id).servers[i]? = some s') : ∃ s, w.servers[i]? = some s ∧
      s'.owner = s.owner ∧ (s'.listed = true → s.listed = true ∧ i ≠ id) := by
  unfold closeServer at h
  split at h
  next hnone =>
    refine ⟨s', h, rfl, fun hlisted => ⟨hlisted, ?_⟩⟩
    rintro rfl
    cases hnone.symm.trans h
  next server hserver =>
    dsimp only at h
    rw [List.getElem?_map] at h
    obtain ⟨u, hu, rfl⟩ := Option.map_eq_some_iff.mp h
    obtain ⟨s, hs, ⟨rfl, rfl⟩ | ⟨hne, rfl⟩⟩ := modify_get hu
    · obtain rfl : server = s := Option.some.inj (hserver.symm.trans hs)
      exact ⟨server, hs, by simp, by simp⟩
    · refine ⟨u, hs, ?_, ?_⟩
      · split <;> rfl
      · split
        · exact nofun
        · exact fun hlisted => ⟨hlisted, hne⟩

theorem stopTasks_net (w : World) (host : HostId) : (w.stopTasks host).servers = w.servers ∧
    (w.stopTasks host).transports = w.transports ∧ (w.stopTasks host).datagrams = w.datagrams ∧
    (w.stopTasks host).stack = w.stack := ⟨rfl, rfl, rfl, rfl⟩

theorem dropTransport_frame (w : World) (id : TransportId) :
    (w.dropTransport id).servers = w.servers ∧ (w.dropTransport id).datagrams = w.datagrams ∧
      (w.dropTransport id).stack = w.stack := by
  unfold dropTransport
  split <;> exact ⟨rfl, rfl, rfl⟩

theorem closeServer_frame (w : World) (id : ServerId) :
    (w.closeServer id).transports = w.transports ∧ (w.closeServer id).datagrams = w.datagrams ∧
      (w.closeServer id).stack = w.stack := by
  unfold closeServer
  split <;> exact ⟨rfl, rfl, rfl⟩

/-- What is swept of the host's does not go on. -/
theorem swept {α : Type} {g : World → List α} {live : α → Bool} {own : α → Owner}
    {f : World → Nat → World}
    (hf : ∀ w id i x', (g (f w id))[i]? = some x' → ∃ x, (g w)[i]? = some x ∧
      own x' = own x ∧ (live x' = true → live x = true ∧ i ≠ id))
    {w : World} {x' : α}
    (hx : x' ∈ g ((indices (fun x => live x && own x == some host) (g w)).foldl f w))
    (hlive : live x' = true) :
    ∃ x ∈ g w, own x' = own x ∧ live x = true ∧ own x ≠ some host := by
  obtain ⟨i, hi⟩ := List.getElem?_of_mem hx
  obtain ⟨x, hx, hown, hends⟩ := foldl_ends hf hi
  obtain ⟨hlive, hnot⟩ := hends hlive
  refine ⟨x, List.mem_of_getElem? hx, hown, hlive, fun howner => hnot (mem_indices hx ?_)⟩
  simp [hlive, howner]

theorem dropTransports_frame (w : World) (host : HostId) :
    (w.dropTransports host).servers = w.servers ∧ (w.dropTransports host).datagrams = w.datagrams ∧
      (w.dropTransports host).stack = w.stack :=
  ⟨foldl_same (g := servers) (fun w id => (dropTransport_frame w id).1) _ _,
    foldl_same (g := datagrams) (fun w id => (dropTransport_frame w id).2.1) _ _,
    foldl_same (g := stack) (fun w id => (dropTransport_frame w id).2.2) _ _⟩

theorem dropDatagrams_frame (w : World) (host : HostId) :
    (w.dropDatagrams host).servers = w.servers ∧ (w.dropDatagrams host).transports = w.transports ∧
      (w.dropDatagrams host).stack = w.stack :=
  ⟨foldl_same (g := servers) (f := dropDatagram) (fun _ _ => rfl) _ _,
    foldl_same (g := transports) (f := dropDatagram) (fun _ _ => rfl) _ _,
    foldl_same (g := stack) (f := dropDatagram) (fun _ _ => rfl) _ _⟩

theorem closeServers_frame (w : World) (host : HostId) :
    (w.closeServers host).transports = w.transports ∧
      (w.closeServers host).datagrams = w.datagrams ∧ (w.closeServers host).stack = w.stack :=
  ⟨foldl_same (g := transports) (fun w id => (closeServer_frame w id).1) _ _,
    foldl_same (g := datagrams) (fun w id => (closeServer_frame w id).2.1) _ _,
    foldl_same (g := stack) (fun w id => (closeServer_frame w id).2.2) _ _⟩

/-- **A crash leaves its host nothing that can act**, and makes nothing. -/
theorem crash_acts (he : w.Enrolled) (hup : (w.hosts host).crashed = false)
    (houtside : ∀ task, .code (some host) task ∉ w.stack) (h : (w.crash host).Acts o) :
    w.Acts o ∧ o ≠ some host := by
  have hfalls := crash_falls hup
  have hcrash : w.crash host =
      (((w.stopTasks host).dropTransports host).dropDatagrams host).closeServers host := by
    unfold crash
    rw [if_neg (by simp [hup])]
  obtain ⟨hservers, htransports, hdatagrams, hstack⟩ := stopTasks_net w host
  obtain ⟨hservers₁, hdatagrams₁, hstack₁⟩ := dropTransports_frame (w.stopTasks host) host
  obtain ⟨hservers₂, htransports₂, hstack₂⟩ :=
    dropDatagrams_frame ((w.stopTasks host).dropTransports host) host
  obtain ⟨htransports₃, hdatagrams₃, hstack₃⟩ :=
    closeServers_frame (((w.stopTasks host).dropTransports host).dropDatagrams host) host
  cases h with
  | @task id t ht hdone hnot =>
    rw [hfalls.tasks] at ht
    have hbefore : id ∉ w.crashed := fun hin => hnot ((hfalls.crashed id).mpr (.inl hin))
    refine ⟨.task ht hdone hbefore, fun howner => hnot ((hfalls.crashed id).mpr (.inr ?_))⟩
    exact ⟨he.complete id t ht hdone hbefore host (.inl howner), (isDone_eq ht).trans hdone⟩
  | @listener s hs hlisted =>
    rw [hcrash] at hs
    obtain ⟨s₀, hs₀, hown, hlisted, hne⟩ := swept (g := servers) closeServer_ends hs hlisted
    rw [hservers₂, hservers₁, hservers] at hs₀
    exact hown ▸ ⟨.listener hs₀ hlisted, hne⟩
  | @transport t ht hclosed =>
    rw [hcrash, htransports₃, htransports₂] at ht
    obtain ⟨t₀, ht₀, hown, hlive, hne⟩ := swept (g := transports) dropTransport_ends ht (by simp [hclosed])
    rw [htransports] at ht₀
    exact hown ▸ ⟨.transport ht₀ (by simpa using hlive), hne⟩
  | @endpoint d hd hclosed =>
    rw [hcrash, hdatagrams₃] at hd
    obtain ⟨d₀, hd₀, hown, hlive, hne⟩ := swept (g := datagrams) dropDatagram_ends hd (by simp [hclosed])
    rw [hdatagrams₁, hdatagrams] at hd₀
    exact hown ▸ ⟨.endpoint hd₀ (by simpa using hlive), hne⟩
  | @code owner task hcode =>
    rw [hcrash, hstack₃, hstack₂, hstack₁, hstack] at hcode
    refine ⟨.code hcode, ?_⟩
    rintro rfl
    exact houtside task hcode

/-- The other hosts are as they were. -/
theorem crash_hosts_ne {other : HostId} (hup : (w.hosts host).crashed = false) (hne : other ≠ host) :
    (w.crash host).hosts other = w.hosts other := by
  have htransports (w : World) (id : TransportId) : (w.dropTransport id).hosts = w.hosts := by
    unfold dropTransport
    split <;> rfl
  have hservers (w : World) (id : ServerId) : (w.closeServer id).hosts = w.hosts := by
    unfold closeServer
    split <;> rfl
  unfold crash
  rw [if_neg (by simp [hup])]
  calc ((((w.stopTasks host).dropTransports host).dropDatagrams host).closeServers host).hosts other
    _ = (((w.stopTasks host).dropTransports host).dropDatagrams host).hosts other :=
      congrFun (foldl_same (g := hosts) hservers _ _) other
    _ = ((w.stopTasks host).dropTransports host).hosts other :=
      congrFun (foldl_same (g := hosts) (f := dropDatagram) (fun _ _ => rfl) _ _) other
    _ = (w.stopTasks host).hosts other := congrFun (foldl_same (g := hosts) htransports _ _) other
    _ = w.hosts other := by simp [stopTasks, crashTasks, Function.update_of_ne hne]

end World

end Simloom
