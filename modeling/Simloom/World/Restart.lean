import Simloom.World.Connect

/-! Restarts and the entries of a host.

`Host.restart` empties the entries and spawns the factories again, one after another; each is
registered once it has been called. What the host has registered is then its entries and what is
left of the restart, and only a factory that raises, or a host that is down again when the next
factory is due, loses any of it (`entries_kept`). -/
namespace Simloom
open Theory
namespace World
variable {w w' : World} {host : HostId}

/-- Restarting a host, below a call to a factory. -/
def isRestarting : List Frame → Bool
  | .restarting _ _ :: _ => true
  | _ => false

/-- What restarts of the host have yet to register, the innermost first. -/
def pending (host : HostId) : List Frame → List FactoryId
  | [] => []
  | .spawning h factory :: rest =>
    (if h = host && isRestarting rest then [factory] else []) ++ pending host rest
  | .restarting h more :: rest => (if h = host then more else []) ++ pending host rest
  | _ :: rest => pending host rest

/-- What is registered, now or when the restarts under way are over. -/
def roster (w : World) (host : HostId) : List (Option FactoryId) :=
  (w.hosts host).entries ++ (pending host w.stack).map some

/-- No factory that a restart of the host calls raises, and the host is up when the next is due. -/
def Rerun (host : HostId) (w : World) : Event → Prop
  | .raise =>
    match w.stack with
    | .spawning h _ :: .restarting h' _ :: _ => h ≠ host ∧ h' ≠ host
    | _ => True
  | .respawn =>
    match w.stack with
    | .restarting h (_ :: _) :: _ => h = host → (w.hosts host).crashed = false
    | _ => True
  | _ => True

instance (w : World) (e : Event) : Decidable (Rerun host w e) := by
  unfold Rerun
  split
  · split <;> infer_instance
  · split <;> infer_instance
  · infer_instance

/-! ### Entries -/

def SameEntries (w w' : World) : Prop := ∀ h, (w'.hosts h).entries = (w.hosts h).entries

theorem SameEntries.refl (w : World) : SameEntries w w := fun _ => rfl

theorem SameEntries.trans {v : World} (h : SameEntries w v) (h' : SameEntries v w') :
    SameEntries w w' := fun host => (h' host).trans (h host)

theorem setHost_entries {new : Host} (hnew : new.entries = (w.hosts host).entries) :
    SameEntries w (w.setHost host new) := by
  intro h
  rw [setHost_hosts, Function.update_apply]
  split
  next heq => rw [hnew, heq]
  next => rfl

theorem register_entries (w : World) (host : HostId) (id : TaskId) :
    SameEntries w (w.register host id) := by
  unfold register
  split
  · exact .refl w
  · exact setHost_entries rfl

theorem createTask_entries (w : World) (creator owner : Owner) :
    SameEntries w (w.createTask creator owner) := by
  unfold createTask
  cases creator with
  | none => exact .refl _
  | some host => exact register_entries _ host _

theorem spawnTask_entries (w : World) (creator : Owner) (host : HostId) :
    SameEntries w (w.spawnTask creator host) :=
  (createTask_entries w creator (some host)).trans (register_entries _ host _)

theorem crash_entries (w : World) (host : HostId) : SameEntries w (w.crash host) := by
  unfold crash
  split
  · exact .refl w
  · have hdown : SameEntries w (w.setHost host {w.hosts host with crashed := true}) :=
      setHost_entries rfl
    have hstop : SameEntries w (w.stopTasks host) :=
      SameEntries.trans (v := (w.setHost host {w.hosts host with crashed := true}).crashTasks _)
        hdown (setHost_entries rfl)
    have htransport (w : World) (id : TransportId) : (w.dropTransport id).hosts = w.hosts := by
      unfold dropTransport
      split <;> rfl
    have hserver (w : World) (id : ServerId) : (w.closeServer id).hosts = w.hosts := by
      unfold closeServer
      split <;> rfl
    intro h
    unfold closeServers dropDatagrams dropTransports
    rw [foldl_same (g := hosts) hserver,
      foldl_same (g := hosts) (f := dropDatagram) (fun _ _ => rfl),
      foldl_same (g := hosts) htransport]
    exact hstop h

theorem enlist_entries (w : World) (host : HostId) (entry : Option FactoryId) :
    ((w.enlist host entry).hosts host).entries = (w.hosts host).entries ++ [entry] := by
  simp [enlist]

theorem enlist_entries_ne (w : World) {host other : HostId} (hne : other ≠ host)
    (entry : Option FactoryId) :
    ((w.enlist host entry).hosts other).entries = (w.hosts other).entries := by
  simp [enlist, Function.update_of_ne hne]

/-! ### What is pending -/

/-- Code that runs is not right above a restart. -/
theorem running_restarting {owner : Owner} (h : w.running = some owner) :
    isRestarting w.stack = false := by
  unfold running at h
  unfold isRestarting
  split
  next heq =>
    rw [heq] at h
    cases h
  next => rfl

theorem pending_spawning {stack : List Frame} (h : isRestarting stack = false) (other : HostId)
    (factory : FactoryId) :
    pending host (.spawning other factory :: stack) = pending host stack := by
  simp [pending, h]

/-! ### One step -/

theorem roster_same (hentries : SameEntries w w')
    (hpending : pending host w'.stack = pending host w.stack) :
    (w.roster host).Sublist (w'.roster host) := by
  unfold roster
  rw [hentries host, hpending]

/-- An entry comes at the end of the entries. -/
theorem enlist_roster (other : HostId) (entry : Option FactoryId) :
    (w.roster host).Sublist ((w.enlist other entry).roster host) := by
  by_cases h : host = other
  · subst h
    unfold roster
    rw [enlist_entries]
    exact (List.sublist_append_left _ _).append_right _
  · unfold roster
    rw [enlist_entries_ne w h]
    rfl

theorem map_some_filterMap {l : List (Option FactoryId)} (h : l.all Option.isSome = true) :
    (l.filterMap id).map some = l := by
  induction l with
  | nil => rfl
  | cons entry rest ih =>
    obtain ⟨hentry, hrest⟩ := (Bool.and_eq_true _ _).mp h
    obtain ⟨factory, rfl⟩ := Option.isSome_iff_exists.mp hentry
    show some factory :: (rest.filterMap id).map some = _
    rw [ih hrest]

/-- A connect that has found its listener is not about entries. -/
theorem Reaches.roster {dial : Dial} (h : Reaches w dial w') :
    (w.roster host).Sublist (w'.roster host) := by
  cases h <;> exact roster_same (fun _ => rfl) rfl

/-- The entries become what is left of the restart. -/
theorem restart_roster {other : HostId} {new : Host} (hnew : new.entries = [])
    (hall : (w.hosts other).entries.all Option.isSome = true) :
    (w.roster host).Sublist (((w.setHost other new).push
      (.restarting other ((w.hosts other).entries.filterMap id))).roster host) := by
  unfold roster
  by_cases h : host = other
  · subst h
    show List.Sublist _ ((Function.update w.hosts host new host).entries ++
      ((if host = host then _ else []) ++ pending host w.stack).map some)
    rw [Function.update_self, hnew, if_pos rfl, List.map_append, map_some_filterMap hall, List.nil_append]
  · show List.Sublist _ ((Function.update w.hosts other new host).entries ++
      ((if other = host then _ else []) ++ pending host w.stack).map some)
    rw [Function.update_of_ne h, if_neg (Ne.symm h), List.nil_append]

theorem Does.roster {owner : Owner} {a : Act} (hrunning : w.running = some owner)
    (h : Does w owner a w') : (w.roster host).Sublist (w'.roster host) := by
  cases h with
  | createTask => exact roster_same (createTask_entries w owner owner) (by rw [createTask_stack])
  | calls other factory =>
    exact roster_same (.refl w) (pending_spawning (running_restarting hrunning) other factory)
  | spawns other =>
    refine (enlist_roster other none).trans (roster_same (spawnTask_entries _ owner other) ?_)
    rw [spawnTask_stack]
  | crash other => exact roster_same (crash_entries w other) (by rw [crash_stack])
  | restart other _ hall => exact restart_roster rfl hall
  | closeServer id =>
    unfold World.closeServer
    split <;> exact List.Sublist.refl _
  | waits _ _ _ _ _ hstack => exact roster_same (fun _ => rfl) (by rw [hstack]; rfl)
  | dials _ _ _ _ _ _ _ _ _ hreach => exact hreach.roster
  | _ => exact roster_same (fun _ => rfl) rfl

/-- What raises was not called by a restart of the host. -/
theorem unwind_pending {stack : List Frame} (hrerun : Rerun host w .raise)
    (h : unwind w.stack = some stack) : pending host stack = pending host w.stack := by
  unfold unwind at h
  split at h
  next other factory again more rest hstack =>
    obtain rfl := Option.some.inj h
    simp only [Rerun, hstack] at hrerun
    simp [hstack, pending, hrerun.1, hrerun.2]
  next other factory rest hnot hstack =>
    obtain rfl := Option.some.inj h
    have htop : isRestarting rest = false := by
      unfold isRestarting
      split
      next again more below => exact (hnot again more below rfl).elim
      next => rfl
    rw [hstack, pending_spawning htop]
  next hstack => exact Option.some.inj h ▸ by rw [hstack]; rfl
  next hstack => exact Option.some.inj h ▸ by rw [hstack]; rfl
  next hstack => exact Option.some.inj h ▸ by rw [hstack]; rfl
  next => cases h

/-- A factory that has been called is registered. -/
theorem spawned_roster {other : HostId} {factory : FactoryId} {rest : List Frame}
    (hstack : w.stack = .spawning other factory :: rest) :
    (w.roster host).Sublist ((enlist {w with stack := rest} other (some factory)).roster host) := by
  have hrest : (enlist {w with stack := rest} other (some factory)).stack = rest := rfl
  unfold roster
  rw [hrest, hstack, pending]
  by_cases h : host = other
  · subst h
    rw [enlist_entries, List.append_assoc]
    refine (List.Sublist.refl _).append ?_
    cases isRestarting rest
    · simp
    · simp
  · rw [enlist_entries_ne _ h]
    simp [Ne.symm h]

/-- **What is registered stays registered.** -/
theorem step_roster {e : Event} (hrerun : Rerun host w e) (h : w.step e = some w') :
    (w.roster host).Sublist (w'.roster host) := by
  cases step_moves h with
  | pick | collect | root | onTransport | onDatagram => exact roster_same (fun _ => rfl) rfl
  | run _ _ hidle => exact roster_same (fun _ => rfl) (by rw [hidle]; rfl)
  | resume _ _ _ hidle => exact roster_same (fun _ => rfl) (by rw [hidle]; rfl)
  | act _ _ _ hrunning hdoes => exact hdoes.roster hrunning
  | leave _ _ _ hstack => exact roster_same (fun _ => rfl) (by rw [hstack]; rfl)
  | finish _ _ _ _ hstack => exact roster_same (fun _ => rfl) (by rw [hstack]; rfl)
  | raise stack hunwind => exact roster_same (fun _ => rfl) (unwind_pending hrerun hunwind)
  | spawned other factory rest owner hstack =>
    refine (spawned_roster hstack).trans (roster_same (spawnTask_entries _ owner other) ?_)
    rw [spawnTask_stack]
  | restarted other more rest hstack hover =>
    refine roster_same (fun _ => rfl) ?_
    rcases more with _ | ⟨factory, more⟩
    · simp [hstack, pending]
    · -- the restart of another host ends
      have hdown := hover.resolve_left nofun
      simp only [Rerun, hstack] at hrerun
      have hne : other ≠ host := fun heq => by
        have hup := hrerun heq
        rw [← heq, hdown] at hup
        cases hup
      simp [hstack, pending, hne]
  | respawn other factory more rest hstack =>
    refine roster_same (fun _ => rfl) ?_
    by_cases heq : other = host <;> simp [hstack, pending, isRestarting, heq]
  | waits _ _ _ _ hstack => exact roster_same (fun _ => rfl) (by rw [hstack]; rfl)
  | redial dial owner task rest hstack _ _ hreach =>
    have hleft : (w.roster host).Sublist
        (World.roster {w with stack := .code owner (some task) :: rest} host) :=
      roster_same (fun _ => rfl) (by rw [hstack]; rfl)
    exact hleft.trans hreach.roster
  | paired _ _ _ hstack => exact roster_same (fun _ => rfl) (by rw [hstack]; rfl)
  | greet _ _ _ hstack => exact roster_same (fun _ => rfl) (by rw [hstack]; rfl)

theorem run_roster {es : List Event} (halong : Transition.Along step (Rerun host) w es)
    (hrun : Transition.run step w es = some w') : (w.roster host).Sublist (w'.roster host) := by
  induction es generalizing w with
  | nil => exact Option.some.inj hrun ▸ List.Sublist.refl _
  | cons e rest ih =>
    obtain ⟨v, hv, hrest⟩ := Transition.run_cons.mp hrun
    exact (step_roster halong.1 hv).trans (ih (halong.2 v hv) hrest)

/-! ### What a restart keeps -/

/-- What a host has registered at some moment, before a crash perhaps, it has registered later too,
in order, when no more of its restarts is under way than was then; and the next restart runs it
again. -/
theorem entries_kept {v w : World} {host : HostId} {es : List Event}
    (hrun : Transition.run step v es = some w)
    (hover : pending host w.stack <:+ pending host v.stack)
    (hrerun : Transition.Along step (Rerun host) v es) :
    ((v.hosts host).entries.Sublist (w.hosts host).entries) ∧
      ∀ again, (w.restart host).stack = .restarting host again :: w.stack →
        (v.hosts host).entries.Sublist (again.map some) := by
  have hkept : (v.hosts host).entries.Sublist (w.hosts host).entries := by
    obtain ⟨more, hmore⟩ := hover
    have hroster := run_roster hrerun hrun
    unfold roster at hroster
    rw [← hmore, List.map_append, ← List.append_assoc, List.append_sublist_append_right] at hroster
    exact (List.sublist_append_left _ _).trans hroster
  refine ⟨hkept, fun again hagain => ?_⟩
  unfold restart at hagain
  dsimp only at hagain
  split at hagain
  next hdown =>
    obtain rfl : (w.hosts host).entries.filterMap id = again :=
      (Frame.restarting.inj (List.cons.inj hagain).1).2
    rwa [map_some_filterMap ((Bool.and_eq_true _ _).mp hdown).2]
  next => exact absurd hagain (List.cons_ne_self _ _).symm

/-- Two entries on a host, made by code of the root world. -/
def twoEntries : List Event :=
  [.root, .act (.spawn 0 (some 0)), .spawned, .act (.spawn 0 (some 1)), .spawned]

/-- The host crashes and is restarted. -/
def powerCycle : List Event :=
  [.act (.crash 0), .act (.restart 0), .respawn, .spawned, .respawn, .spawned, .respawn]

theorem entries_kept_twice : ∃ v w, Transition.run step start twoEntries = some v ∧
    Transition.run step v powerCycle = some w ∧ w.stack = v.stack ∧
    (v.hosts 0).entries = [some 0, some 1] ∧ (v.hosts 0).entries.Sublist (w.hosts 0).entries := by
  refine ⟨_, _, rfl, rfl, rfl, rfl, ?_⟩
  exact And.left (@entries_kept _ _ 0 powerCycle rfl (List.suffix_refl _) (by decide))

/-- The first factory raises when it is called again: the host has no entry left. -/
theorem restart_forgets : ∃ v w, Transition.run step start twoEntries = some v ∧
    Transition.run step v [.act (.crash 0), .act (.restart 0), .respawn, .raise] = some w ∧
    w.stack = v.stack ∧ (v.hosts 0).entries = [some 0, some 1] ∧ (w.hosts 0).entries = [] ∧
    ¬ (v.hosts 0).entries.Sublist (w.hosts 0).entries :=
  ⟨_, _, rfl, rfl, rfl, rfl, rfl, by decide⟩

end World

end Simloom
