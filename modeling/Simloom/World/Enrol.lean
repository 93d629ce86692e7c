import Simloom.World.Moves
import Simloom.Loop.Crash

/-! Which tasks a host has registered.

A step leaves the tasks and their registration alone, or finishes a task, or makes one, which
its host registers and the host of the code that made it, or crashes a host (`step_enrols`). So a
host has registered exactly the tasks that run on it or were made by its code, as long as they
are neither done nor crashed (`Enrolled`). -/
namespace Simloom
open Theory
namespace World
variable {w w' v : World} {host h : HostId} {id : TaskId} {owner : Owner}

/-! ### Registration -/

theorem mem_register {other : TaskId} : other ∈ ((w.register host id).hosts h).tasks ↔
    other ∈ (w.hosts h).tasks ∨ h = host ∧ other = id := by
  unfold register
  split
  next hin =>
    refine (or_iff_left_of_imp ?_).symm
    rintro ⟨rfl, rfl⟩
    exact hin
  next =>
    rw [setHost_hosts, Function.update_apply]
    split
    next heq => simp [heq]
    next hne => simp [hne]

theorem mem_registerOwner {other : TaskId} : other ∈ ((w.registerOwner owner id).hosts h).tasks ↔
    other ∈ (w.hosts h).tasks ∨ owner = some h ∧ other = id := by
  cases owner with
  | none => simp [registerOwner]
  | some host => simp [registerOwner, mem_register, eq_comm]

/-- Registering changes the hosts' tasks only. -/
theorem register_frame : (w.register host id).tasks = w.tasks ∧
    (w.register host id).crashed = w.crashed := by
  unfold register
  split <;> exact ⟨rfl, rfl⟩

theorem registerOwner_frame : (w.registerOwner owner id).tasks = w.tasks ∧
    (w.registerOwner owner id).crashed = w.crashed := by
  cases owner with
  | none => exact ⟨rfl, rfl⟩
  | some host => exact register_frame

/-! ### What a step does to tasks -/

/-- The tasks are as they were, and so is their registration. -/
structure Still (w w' : World) : Prop where
  tasks : w'.tasks = w.tasks
  crashed : w'.crashed = w.crashed
  registered : ∀ h, (w'.hosts h).tasks = (w.hosts h).tasks

theorem Still.refl (w : World) : Still w w := ⟨rfl, rfl, fun _ => rfl⟩

theorem Still.trans (h : Still w v) (h' : Still v w') : Still w w' :=
  ⟨h'.tasks.trans h.tasks, h'.crashed.trans h.crashed,
    fun x => (h'.registered x).trans (h.registered x)⟩

/-- A task is made, and registered with its host and with its creator's. -/
structure Born (t : Task) (w w' : World) : Prop where
  tasks : w'.tasks = w.tasks ++ [t]
  crashed : w'.crashed = w.crashed
  undone : t.done = false
  registered : ∀ h id, id ∈ (w'.hosts h).tasks ↔
    id ∈ (w.hosts h).tasks ∨ (t.host = some h ∨ t.creator = some h) ∧ id = w.tasks.length

/-- A crash that is not the host's second. -/
structure Falls (host : HostId) (w w' : World) : Prop where
  up : (w.hosts host).crashed = false
  tasks : w'.tasks = w.tasks
  crashed : ∀ id, id ∈ w'.crashed ↔
    id ∈ w.crashed ∨ id ∈ (w.hosts host).tasks ∧ w.isDone id = false
  registered : ∀ h, (w'.hosts h).tasks = if h = host then [] else (w.hosts h).tasks

inductive Enrols (w w' : World) : Prop where
  | still (h : Still w w')
  | finished (id : TaskId) (finished : Bool)
    (tasks : w'.tasks = w.tasks.modify id fun t => {t with done := t.done || finished})
    (crashed : w'.crashed = w.crashed) (registered : ∀ h, (w'.hosts h).tasks = (w.hosts h).tasks)
  | born (t : Task) (h : Born t w w')
  | falls (host : HostId) (h : Falls host w w')

theorem createTask_born : Born ⟨owner, owner, false⟩ w (w.createTask owner owner) where
  tasks := registerOwner_frame.1
  crashed := registerOwner_frame.2
  undone := rfl
  registered h id := by
    unfold createTask
    rw [mem_registerOwner, or_self]

theorem spawnTask_born : Born ⟨some host, owner, false⟩ w (w.spawnTask owner host) where
  tasks := register_frame.1.trans registerOwner_frame.1
  crashed := register_frame.2.trans registerOwner_frame.2
  undone := rfl
  registered h id := by
    unfold spawnTask createTask
    rw [mem_register, mem_registerOwner, Option.some_inj, eq_comm (a := host)]
    tauto

theorem Born.after_still {t : Task} (hs : Still w v) (hb : Born t v w') : Born t w w' where
  tasks := by rw [hb.tasks, hs.tasks]
  crashed := hb.crashed.trans hs.crashed
  undone := hb.undone
  registered h id := by rw [hb.registered, hs.registered, hs.tasks]

theorem setHost_still {new : Host} (htasks : new.tasks = (w.hosts host).tasks) :
    Still w (w.setHost host new) where
  tasks := rfl
  crashed := rfl
  registered h := by
    rw [setHost_hosts, Function.update_apply]
    split
    next heq => rw [heq, htasks]
    next => rfl

theorem foldl_still {α : Type} {f : World → α → World} (hf : ∀ w x, Still w (f w x))
    (w : World) (l : List α) : Still w (l.foldl f w) := by
  induction l generalizing w with
  | nil => exact .refl w
  | cons x rest ih => exact (hf w x).trans (ih _)

theorem dropTransport_still (w : World) (id : TransportId) : Still w (w.dropTransport id) := by
  unfold dropTransport
  split <;> exact ⟨rfl, rfl, fun _ => rfl⟩

theorem closeServer_still (w : World) (id : ServerId) : Still w (w.closeServer id) := by
  unfold closeServer
  split <;> exact ⟨rfl, rfl, fun _ => rfl⟩

/-! ### Crashes -/

theorem mem_liveTasks : id ∈ w.liveTasks host ↔ id ∈ (w.hosts host).tasks ∧ w.isDone id = false := by
  unfold liveTasks
  simp

theorem stopTasks_falls (hup : (w.hosts host).crashed = false) : Falls host w (w.stopTasks host) := by
  let down := w.setHost host {w.hosts host with crashed := true}
  have hdown : Still w down := setHost_still rfl
  refine ⟨hup, hdown.tasks, fun id => ?_, fun h => ?_⟩
  · show id ∈ ((down.liveTasks host).filter _).foldl Agenda.enter w.crashed ↔ _
    rw [Agenda.mem_foldl_enter, List.mem_filter, mem_liveTasks, hdown.registered]
    have hdone : down.isDone id = w.isDone id := rfl
    rw [hdone]
    cases w.isDone id <;> simp
  · show (Function.update down.hosts host _ h).tasks = _
    rw [Function.update_apply]
    split
    · rfl
    · exact hdown.registered h

theorem Falls.then_still (h : Falls host w v) (hs : Still v w') : Falls host w w' :=
  ⟨h.up, hs.tasks.trans h.tasks, fun id => by rw [hs.crashed, h.crashed],
    fun x => (hs.registered x).trans (h.registered x)⟩

theorem crash_falls (hup : (w.hosts host).crashed = false) : Falls host w (w.crash host) := by
  unfold crash
  rw [if_neg (by simp [hup])]
  have htransports : Still (w.stopTasks host) ((w.stopTasks host).dropTransports host) :=
    foldl_still dropTransport_still _ _
  have hdatagrams (w : World) : Still w (w.dropDatagrams host) :=
    foldl_still (f := dropDatagram) (fun _ _ => ⟨rfl, rfl, fun _ => rfl⟩) _ _
  have hservers (w : World) : Still w (w.closeServers host) := foldl_still closeServer_still _ _
  exact (stopTasks_falls hup).then_still ((htransports.trans (hdatagrams _)).trans (hservers _))

/-! ### Steps -/

theorem enlist_still (host : HostId) (entry : Option FactoryId) : Still w (w.enlist host entry) :=
  setHost_still rfl

theorem Reaches.still {dial : Dial} (h : Reaches w dial w') : Still w w' := by
  cases h <;> exact ⟨rfl, rfl, fun _ => rfl⟩

theorem Does.enrols {a : Act} (h : Does w owner a w') : Enrols w w' := by
  cases h with
  | createTask => exact .born _ createTask_born
  | spawns host _ => exact .born _ (spawnTask_born.after_still (enlist_still host none))
  | crash host hup => exact .falls host (crash_falls hup)
  | restart host _ _ =>
    have hup : Still w (w.setHost host {w.hosts host with
        crashed := false, generation := (w.hosts host).generation + 1, entries := []}) :=
      setHost_still rfl
    exact .still (hup.trans ⟨rfl, rfl, fun _ => rfl⟩)
  | closeServer id => exact .still (closeServer_still w id)
  | dials _ _ _ _ _ _ _ _ _ hreach => exact .still hreach.still
  | _ => exact .still ⟨rfl, rfl, fun _ => rfl⟩

/-- **What a step does to tasks and their registration.** -/
theorem step_enrols {e : Event} (h : w.step e = some w') : Enrols w w' := by
  cases step_moves h with
  | act _ _ _ _ hdoes => exact hdoes.enrols
  | finish finished _ id => exact .finished id finished rfl rfl fun _ => rfl
  | spawned host factory rest owner =>
    have hstill : Still w (enlist {w with stack := rest} host (some factory)) :=
      Still.trans (v := {w with stack := rest}) ⟨rfl, rfl, fun _ => rfl⟩ (enlist_still host _)
    exact .born _ (spawnTask_born.after_still hstill)
  | redial dial host task rest _ _ _ hreach =>
    refine .still (Still.trans (v := {w with stack := .code host (some task) :: rest}) ?_ hreach.still)
    exact ⟨rfl, rfl, fun _ => rfl⟩
  | _ => exact .still ⟨rfl, rfl, fun _ => rfl⟩

/-! ### The registers -/

/-- Has to do with a host: runs on it, or was made by its code. -/
def Task.Concerns (t : Task) (host : HostId) : Prop := t.host = some host ∨ t.creator = some host

/-- A host's register holds its tasks and those that its code made, all of them that are
neither done nor crashed. -/
structure Enrolled (w : World) : Prop where
  known : ∀ host id, id ∈ (w.hosts host).tasks →
    ∃ t, w.tasks[id]? = some t ∧ t.Concerns host
  complete : ∀ id t, w.tasks[id]? = some t → t.done = false → id ∉ w.crashed →
    ∀ host, t.Concerns host → id ∈ (w.hosts host).tasks

theorem isDone_eq {t : Task} (h : w.tasks[id]? = some t) : w.isDone id = t.done := by
  unfold isDone
  rw [h]
  rfl

theorem Enrolled.enrols (he : w.Enrolled) (h : Enrols w w') : w'.Enrolled := by
  cases h with
  | still h =>
    refine ⟨fun host id hin => ?_, fun id t ht hdone hcrashed host hc => ?_⟩
    · rw [h.tasks]
      exact he.known host id (h.registered host ▸ hin)
    · rw [h.registered]
      exact he.complete id t (h.tasks ▸ ht) hdone (h.crashed ▸ hcrashed) host hc
  | finished done finished htasks hcrashed hregistered =>
    have hget (id : TaskId) (t : Task) (ht : w'.tasks[id]? = some t) : ∃ t', w.tasks[id]? = some t' ∧
        (∀ host, t.Concerns host ↔ t'.Concerns host) ∧ (t.done = false → t'.done = false) := by
      rw [htasks, List.getElem?_modify] at ht
      obtain ⟨t', ht', rfl⟩ := Option.map_eq_some_iff.mp ht
      refine ⟨t', ht', fun host => ?_, fun hdone => ?_⟩
      · split <;> exact Iff.rfl
      · split at hdone
        · exact (Bool.or_eq_false_iff.mp hdone).1
        · exact hdone
    refine ⟨fun host id hin => ?_, fun id t ht hdone hnot host hc => ?_⟩
    · obtain ⟨t, ht, hc⟩ := he.known host id (hregistered host ▸ hin)
      have hlt : id < w'.tasks.length := by
        rw [htasks, List.length_modify]
        exact (List.getElem?_eq_some_iff.mp ht).1
      obtain ⟨t', ht', hiff, _⟩ := hget id _ (List.getElem?_eq_getElem hlt)
      obtain rfl := Option.some.inj (ht.symm.trans ht')
      exact ⟨_, List.getElem?_eq_getElem hlt, (hiff host).mpr hc⟩
    · obtain ⟨t', ht', hiff, hundone⟩ := hget id t ht
      rw [hregistered]
      exact he.complete id t' ht' (hundone hdone) (hcrashed ▸ hnot) host ((hiff host).mp hc)
  | born t h =>
    refine ⟨fun host id hin => ?_, fun id t' ht' hdone hnot host hc => ?_⟩
    · rw [h.tasks]
      rcases (h.registered host id).mp hin with hold | ⟨hc, rfl⟩
      · obtain ⟨t', ht', hc⟩ := he.known host id hold
        rw [List.getElem?_append_left (List.getElem?_eq_some_iff.mp ht').1]
        exact ⟨t', ht', hc⟩
      · exact ⟨t, List.getElem?_concat_length, hc⟩
    · rw [h.registered]
      rw [h.tasks, List.getElem?_append] at ht'
      split at ht'
      · exact .inl (he.complete id t' ht' hdone (h.crashed ▸ hnot) host hc)
      next hge =>
        rw [List.getElem?_singleton] at ht'
        split at ht'
        next hzero =>
          obtain rfl := Option.some.inj ht'
          exact .inr ⟨hc, le_antisymm (Nat.sub_eq_zero_iff_le.mp hzero) (not_lt.mp hge)⟩
        next => cases ht'
  | falls down h =>
    refine ⟨fun host id hin => ?_, fun id t ht hdone hnot host hc => ?_⟩
    · rw [h.tasks]
      rw [h.registered] at hin
      split at hin
      · cases hin
      · exact he.known host id hin
    · have hundone : w.isDone id = false := (isDone_eq (h.tasks ▸ ht)).trans hdone
      have hbefore (x : HostId) (hx : t.Concerns x) : id ∈ (w.hosts x).tasks :=
        he.complete id t (h.tasks ▸ ht) hdone (fun hin => hnot ((h.crashed id).mpr (.inl hin))) x hx
      rw [h.registered]
      split
      next heq => exact absurd ((h.crashed id).mpr (.inr ⟨heq ▸ hbefore host hc, hundone⟩)) hnot
      next => exact hbefore host hc

theorem enrolled_start : start.Enrolled := ⟨fun _ _ h => (nomatch h), fun _ _ h => (nomatch h)⟩

/-- The registers hold what they should in every run. -/
theorem run_enrolled {es : List Event} (h : Transition.run step start es = some w) : w.Enrolled := by
  have hkeep : Transition.Keeps step (fun _ _ => True) Enrolled :=
    fun w e w' _ he hstep => he.enrols (step_enrols hstep)
  exact hkeep.run (Transition.along_of_forall (fun _ _ _ => trivial) _) enrolled_start h

end World

end Simloom
