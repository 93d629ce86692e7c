import Simloom.World.Crash

/-! Servers that can be reached.

A server is reachable from a host while it is not closed and no direction between them is
blocked. Only acts change that, and of these only a block of the link, and a close or a crash
of the server (`step_reachable`). -/
namespace Simloom
open Theory
namespace World
variable {w w' : World} {owner client : Owner} {id : ServerId}

/-- Neither direction is blocked between the client and the server's owner, and the server is
serving. -/
structure Reachable (w : World) (id : ServerId) (client : Owner) : Prop where
  clear : w.isCut client (w.ownerOf id) = false
  serving : (w.servers[id]?).any (!·.closed) = true

/-- The code that the connect is running blocks its link or closes its server. -/
def severs (w : World) (id : ServerId) (client : Owner) : Act → Bool
  | .block src dst => (src, dst) == (client, w.ownerOf id) || (src, dst) == (w.ownerOf id, client)
  | .closeServer other => other == id
  | .crash host =>
    !(w.hosts host).crashed && (w.servers[id]?).any fun s => s.listed && s.owner == some host
  | _ => false

/-! ### What a step does to servers and blocked links -/

structure SameNet (w w' : World) : Prop where
  servers : w'.servers = w.servers
  blocked : w'.blocked = w.blocked

theorem registerOwner_net (w : World) (owner : Owner) (id : TaskId) :
    SameNet w (w.registerOwner owner id) := by
  cases owner with
  | none => exact ⟨rfl, rfl⟩
  | some host =>
    show SameNet w (w.register host id)
    unfold register
    split <;> exact ⟨rfl, rfl⟩

theorem createTask_net (w : World) (creator host : Owner) :
    SameNet w (w.createTask creator host) :=
  ⟨(registerOwner_net _ creator _).servers, (registerOwner_net _ creator _).blocked⟩

theorem spawnTask_net (w : World) (creator : Owner) (host : HostId) :
    SameNet w (w.spawnTask creator host) := by
  have hcreate := createTask_net w creator (some host)
  have hregister := registerOwner_net (w.createTask creator (some host)) (some host) w.tasks.length
  exact ⟨hregister.servers.trans hcreate.servers, hregister.blocked.trans hcreate.blocked⟩

theorem Reaches.net {dial : Dial} (h : Reaches w dial w') : SameNet w w' := by
  cases h <;> exact ⟨rfl, rfl⟩

/-- Only acts change servers or links. -/
theorem step_net {e : Event} (hact : ∀ a, e ≠ .act a) (h : w.step e = some w') : SameNet w w' := by
  cases step_moves h with
  | act a => exact absurd rfl (hact a)
  | spawned host factory rest owner =>
    have hspawn := spawnTask_net (enlist {w with stack := rest} host (some factory)) owner host
    exact ⟨hspawn.servers, hspawn.blocked⟩
  | redial _ _ _ _ _ _ _ hreach => exact ⟨hreach.net.servers, hreach.net.blocked⟩
  | _ => exact ⟨rfl, rfl⟩

/-! ### What keeps a server reachable -/

/-- A reachable server stays so if it is still there, open and its owner's, and no link is newly
blocked. -/
theorem Reachable.mono (h : w.Reachable id client)
    (hserver : ∀ s, w.servers[id]? = some s →
      ∃ s', w'.servers[id]? = some s' ∧ s'.owner = s.owner ∧ s'.closed = s.closed)
    (hblocked : ∀ link ∈ w'.blocked, link ∈ w.blocked) : w'.Reachable id client := by
  have hserving := h.serving
  obtain ⟨s, hs⟩ : ∃ s, w.servers[id]? = some s := by
    cases hs : w.servers[id]? with
    | none => rw [hs] at hserving; cases hserving
    | some s => exact ⟨s, rfl⟩
  rw [hs] at hserving
  obtain ⟨s', hs', howner, hclosed⟩ := hserver s hs
  have hclear := h.clear
  rw [isCut, ownerOf, hs] at hclear
  refine ⟨?_, ?_⟩
  · rw [isCut, ownerOf, hs']
    simp only [Option.bind_some, howner]
    simp only [Option.bind_some, Bool.or_eq_false_iff, decide_eq_false_iff_not] at hclear ⊢
    exact ⟨fun hin => hclear.1 (hblocked _ hin), fun hin => hclear.2 (hblocked _ hin)⟩
  · rw [hs']
    simpa [hclosed] using hserving

theorem Reachable.same (h : w.Reachable id client) (hsame : SameNet w w') :
    w'.Reachable id client :=
  h.mono (fun s hs => ⟨s, by rw [hsame.servers, hs], rfl, rfl⟩) (by simp [hsame.blocked])

theorem closeServer_other {other : ServerId} (hne : other ≠ id) {s : Server}
    (hs : w.servers[id]? = some s) : ∃ s', (w.closeServer other).servers[id]? = some s' ∧
      s'.owner = s.owner ∧ s'.closed = s.closed := by
  unfold closeServer
  split
  · exact ⟨s, hs, rfl, rfl⟩
  next server _ =>
    dsimp only
    rw [List.getElem?_map, List.getElem?_modify, hs]
    simp only [if_neg hne]
    refine ⟨_, rfl, ?_⟩
    dsimp only
    split <;> exact ⟨rfl, rfl⟩

theorem closeServers_other {ids : List ServerId} (hids : id ∉ ids) {s : Server}
    (hs : w.servers[id]? = some s) : ∃ s', (ids.foldl closeServer w).servers[id]? = some s' ∧
      s'.owner = s.owner ∧ s'.closed = s.closed := by
  induction ids generalizing w s with
  | nil => exact ⟨s, hs, rfl, rfl⟩
  | cons other rest ih =>
    have hne := List.ne_of_not_mem_cons hids
    obtain ⟨u, hu, howner, hclosed⟩ := closeServer_other hne.symm hs
    obtain ⟨s', hs', howner', hclosed'⟩ := ih (List.not_mem_of_not_mem_cons hids) hu
    exact ⟨s', hs', howner'.trans howner, hclosed'.trans hclosed⟩

theorem crash_net (w : World) (host : HostId) (hup : (w.hosts host).crashed = false) :
    (w.crash host).servers =
        ((indices (fun s => s.listed && s.owner == some host) w.servers).foldl closeServer
          (((w.stopTasks host).dropTransports host).dropDatagrams host)).servers ∧
      (((w.stopTasks host).dropTransports host).dropDatagrams host).servers = w.servers ∧
      (w.crash host).blocked = w.blocked := by
  have hservers : (((w.stopTasks host).dropTransports host).dropDatagrams host).servers =
      w.servers := by
    rw [(dropDatagrams_frame _ host).1, (dropTransports_frame _ host).1]
    rfl
  have hclose (w : World) (id : ServerId) : (w.closeServer id).blocked = w.blocked := by
    unfold closeServer
    split <;> rfl
  have hdrop (w : World) (id : TransportId) : (w.dropTransport id).blocked = w.blocked := by
    unfold dropTransport
    split <;> rfl
  unfold crash
  rw [if_neg (by simp [hup])]
  refine ⟨by rw [closeServers, hservers], hservers, ?_⟩
  calc ((((w.stopTasks host).dropTransports host).dropDatagrams host).closeServers host).blocked
    _ = (((w.stopTasks host).dropTransports host).dropDatagrams host).blocked :=
      foldl_same (g := blocked) hclose _ _
    _ = ((w.stopTasks host).dropTransports host).blocked :=
      foldl_same (g := blocked) (f := dropDatagram) (fun _ _ => rfl) _ _
    _ = (w.stopTasks host).blocked := foldl_same (g := blocked) hdrop _ _
    _ = w.blocked := rfl

theorem crash_reachable {host : HostId} (hup : (w.hosts host).crashed = false)
    (hr : w.Reachable id client) (hsafe : w.severs id client (.crash host) = false) :
    (w.crash host).Reachable id client := by
  obtain ⟨hcrash, hservers, hblocked⟩ := crash_net w host hup
  refine hr.mono (fun s hs => ?_) (by simp [hblocked])
  have hnot : id ∉ indices (fun s => s.listed && s.owner == some host) w.servers := by
    intro hin
    have hany := (List.mem_filter.mp hin).2
    simp only [severs, hup, Bool.not_false, Bool.true_and] at hsafe
    rw [hsafe] at hany
    cases hany
  rw [hcrash]
  exact closeServers_other hnot (hservers ▸ hs)

theorem Does.reachable {a : Act} (h : Does w owner a w') (hr : w.Reachable id client)
    (hsafe : w.severs id client a = false) : w'.Reachable id client := by
  cases h with
  | createTask => exact hr.same (createTask_net w owner owner)
  | spawns host =>
    have hspawn := spawnTask_net (w.enlist host none) owner host
    exact hr.same ⟨hspawn.servers, hspawn.blocked⟩
  | crash host hup => exact crash_reachable hup hr hsafe
  | listen address =>
    refine hr.mono (fun s hs => ⟨s, ?_, rfl, rfl⟩) fun link hin => hin
    show (w.servers ++ _)[id]? = some s
    rw [List.getElem?_append_left (List.getElem?_eq_some_iff.mp hs).1, hs]
  | closeServer other =>
    have hne : other ≠ id := by simpa [severs] using hsafe
    have hblocked : (w.closeServer other).blocked = w.blocked := by
      unfold World.closeServer
      split <;> rfl
    exact hr.mono (fun s hs => closeServer_other hne hs) (by simp [hblocked])
  | dials _ _ _ _ _ _ _ _ _ hreach => exact hr.same hreach.net
  | block src dst =>
    have hclear := hr.clear
    simp only [isCut, Bool.or_eq_false_iff, decide_eq_false_iff_not] at hclear
    simp only [severs, Bool.or_eq_false_iff, beq_eq_false_iff_ne] at hsafe
    refine ⟨?_, hr.serving⟩
    show (decide (_ ∈ (src, dst) :: w.blocked) || decide (_ ∈ (src, dst) :: w.blocked)) = false
    simp only [Bool.or_eq_false_iff, decide_eq_false_iff_not, List.mem_cons, not_or]
    exact ⟨⟨Ne.symm hsafe.1, hclear.1⟩, Ne.symm hsafe.2, hclear.2⟩
  | unblock src dst =>
    exact hr.mono (fun s hs => ⟨s, hs, rfl, rfl⟩) fun link hin => (List.mem_filter.mp hin).1
  | heal => exact hr.mono (fun s hs => ⟨s, hs, rfl, rfl⟩) fun _ h => absurd h List.not_mem_nil
  | _ => exact hr.same ⟨rfl, rfl⟩

theorem step_reachable {e : Event} (h : w.step e = some w') (hr : w.Reachable id client)
    (hsafe : ∀ a, e = .act a → w.severs id client a = false) : w'.Reachable id client := by
  by_cases hact : ∀ a, e ≠ .act a
  · exact hr.same (step_net hact h)
  · obtain ⟨a, rfl⟩ := not_forall_not.mp hact
    obtain ⟨owner, _, h⟩ := Option.bind_eq_some_iff.mp h
    exact (act_does h).reachable hr (hsafe a rfl)

end World

end Simloom
