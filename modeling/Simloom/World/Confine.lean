import Simloom.World.Enrol

/-! What a crash takes along.

A host crashes what it has registered. That is its own tasks and those that its code made on
another host, which `Host._spawn` registers there and `create_task` here. -/
namespace Simloom
open Theory
namespace World
variable {w : World} {host : HostId}

/-- A crash of the host crashes only tasks that run on it. -/
def Confined (w : World) (host : HostId) : Prop :=
  ∀ id ∈ (w.crash host).crashed, id ∉ w.crashed →
    ∃ t, w.tasks[id]? = some t ∧ t.host = some host

/-- Code of the host has a task on another host, or on none, that is neither done nor
crashed. -/
def HasEmissary (w : World) (host : HostId) : Prop :=
  ∃ id t, w.tasks[id]? = some t ∧ t.done = false ∧ id ∉ w.crashed ∧
    t.creator = some host ∧ t.host ≠ some host

/-- **A crash is confined to its host exactly if the host's code has no task elsewhere.** -/
theorem crash_confined_iff {es : List Event} (hrun : Transition.run step start es = some w)
    (host : HostId) :
    w.Confined host ↔ (w.hosts host).crashed = true ∨ ¬ w.HasEmissary host := by
  have he : w.Enrolled := run_enrolled hrun
  cases hup : (w.hosts host).crashed with
  | true =>
    refine iff_of_true (fun id hin hnot => ?_) (.inl rfl)
    unfold crash at hin
    rw [if_pos hup] at hin
    exact absurd hin hnot
  | false =>
    have hfalls := crash_falls hup
    constructor
    · rintro hconfined
      refine .inr ?_
      rintro ⟨id, t, ht, hdone, hnot, hcreator, hhost⟩
      have hregistered : id ∈ (w.hosts host).tasks := he.complete id t ht hdone hnot host (.inr hcreator)
      have hcrashed : id ∈ (w.crash host).crashed :=
        (hfalls.crashed id).mpr (.inr ⟨hregistered, (isDone_eq ht).trans hdone⟩)
      obtain ⟨t', ht', hhost'⟩ := hconfined id hcrashed hnot
      obtain rfl := Option.some.inj (ht.symm.trans ht')
      exact hhost hhost'
    · intro hnone id hin hnot
      obtain ⟨hregistered, hdone⟩ := ((hfalls.crashed id).mp hin).resolve_left hnot
      obtain ⟨t, ht, hconcerns⟩ := he.known host id hregistered
      refine ⟨t, ht, ?_⟩
      by_contra hhost
      have hcreator : t.creator = some host := hconcerns.resolve_left hhost
      exact hnone.resolve_left (by simp)
        ⟨id, t, ht, (isDone_eq ht).symm.trans hdone, hnot, hcreator, hhost⟩

/-- Two hosts whose tasks the root world has spawned. -/
theorem crash_confined_sample :
    let es := [.root, .act (.spawn 0 (some 0)), .spawned, .act (.spawn 1 (some 1)), .spawned,
      .leave false]
    ∃ w, Transition.run step start es = some w ∧ w.Confined 0 := by
  intro es
  have hrun : Transition.run step start es = some _ := rfl
  refine ⟨_, hrun, (crash_confined_iff hrun 0).mpr (.inr ?_)⟩
  rintro ⟨id, t, ht, _, _, hcreator, _⟩
  match id with
  | 0 | 1 =>
    obtain rfl := Option.some.inj ht
    cases hcreator
  | id + 2 => cases ht

/-- Code on host 0 spawns on host 1; the crash of host 0 then takes that task along. -/
theorem crash_takes_emissary :
    ∃ es w, Transition.run step start es = some w ∧ ¬ w.Confined 0 := by
  refine ⟨[.root, .act (.spawn 0 (some 0)), .spawned, .leave false, .pick 0, .run,
    .act (.spawn 1 (some 1)), .spawned, .leave false, .root], _, rfl, fun h => ?_⟩
  obtain ⟨t, ht, hhost⟩ := h 1 (by decide) (by decide)
  obtain rfl := Option.some.inj ht
  cases hhost

end World

end Simloom
