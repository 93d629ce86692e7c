import Simloom.Loop.Placement

/-! Handles of crashed tasks.

A step takes no handle of a crashed task, so none of them runs, unless the task crashes
between the taking and the running. Those that were ready at the crash, were made ready
since or fell due since stay in the ready list or are parked, and reviving puts each of them
in the ready list once. -/
namespace Simloom.Agenda
open Theory
variable {J : Type} {a a' : Agenda J}

/-- Crashed tasks do not run, and what is withheld from them is kept for them. -/
structure Loyal (a : Agenda J) : Prop where
  ran : ∀ r ∈ a.ran, r.handle.call.self.any (· ∈ r.crashed) = false
  hand : ∀ h ∈ a.hand, a.isCrashedOwned h = false
  withheld : ∀ id ∈ a.withheld, id ∉ a.cancelled →
    ∃ h ∈ a.ready ++ a.parked, h.id = id ∧ a.isCrashedOwned h = true

theorem loyal_start (epoch : ℚ) : (start epoch : Agenda J).Loyal where
  ran := fun _ h => absurd h List.not_mem_nil
  hand := fun _ h => nomatch h
  withheld := fun _ h => absurd h List.not_mem_nil

theorem mem_foldl_enter {t : TaskId} (tasks crashed : List TaskId) :
    t ∈ tasks.foldl enter crashed ↔ t ∈ crashed ∨ t ∈ tasks := by
  induction tasks generalizing crashed with
  | nil => simp
  | cons task rest ih =>
    have hstep : t ∈ enter crashed task ↔ t ∈ crashed ∨ t = task := by
      unfold enter
      split
      next hin => exact ⟨.inl, fun h => h.elim id fun h => h ▸ hin⟩
      next => rw [List.mem_append, List.mem_singleton]
    rw [List.foldl_cons, ih, hstep, List.mem_cons, or_assoc]

theorem crashTasks_owned {tasks : List TaskId} {h : Handle J} (ho : a.isCrashedOwned h = true) :
    (a.crashTasks tasks).isCrashedOwned h = true := by
  obtain ⟨task, hself, hin⟩ := isCrashedOwned_iff.mp ho
  exact isCrashedOwned_iff.mpr ⟨task, hself, (mem_foldl_enter tasks _).mpr (.inl hin)⟩

/-- What is newly withheld is where it should be. -/
theorem Loyal.withhold (h : a.Loyal) {hs : List (Handle J)}
    (hin : ∀ x ∈ hs, x.id ∉ a.cancelled → a.isCrashedOwned x = true → x ∈ a.ready ++ a.parked) :
    (a.withhold hs).Loyal where
  ran := h.ran
  hand := h.hand
  withheld := fun id hid hc => by
    rcases List.mem_append.mp hid with hid | hid
    · exact h.withheld id hid hc
    · obtain ⟨x, hx, rfl⟩ := List.mem_map.mp hid
      obtain ⟨hx, ho⟩ := List.mem_filter.mp hx
      exact ⟨x, hin x hx hc ho, rfl, ho⟩

theorem Loyal.callSoon (h : a.Loyal) (call : Callable J) : (a.callSoon call).Loyal := by
  unfold Agenda.callSoon
  refine Loyal.withhold ?_ fun x hx _ _ => ?_
  · refine ⟨h.ran, h.hand, fun id hid hc => ?_⟩
    obtain ⟨x, hx, hxid, ho⟩ := h.withheld id hid hc
    refine ⟨x, ?_, hxid, ho⟩
    rcases List.mem_append.mp hx with hx | hx
    · exact List.mem_append_left _ (List.mem_append_left _ hx)
    · exact List.mem_append_right _ hx
  · exact List.mem_append_left _ (List.mem_append_right _ hx)

theorem Loyal.crashTasks (h : a.Loyal) {tasks : List TaskId} (hs : a.Spares tasks) :
    (a.crashTasks tasks).Loyal := by
  unfold Agenda.crashTasks
  refine Loyal.withhold ?_ fun x hx _ _ => List.mem_append_left _ hx
  refine ⟨h.ran, fun x hx => ?_, fun id hid hc => ?_⟩
  · refine Bool.eq_false_iff.mpr fun ho => ?_
    obtain ⟨task, hself, hin⟩ := isCrashedOwned_iff.mp ho
    rcases (mem_foldl_enter tasks _).mp hin with hin | hin
    · have hlive := h.hand x hx
      rw [isCrashedOwned_iff.mpr ⟨task, hself, hin⟩] at hlive
      cases hlive
    · exact hs x hx task hin hself
  · obtain ⟨x, hx, hxid, ho⟩ := h.withheld id hid hc
    exact ⟨x, hx, hxid, crashTasks_owned ho⟩

theorem Loyal.compactReady (h : a.Loyal) : a.compactReady.Loyal where
  ran := h.ran
  hand := h.hand
  withheld := fun id hid hc => by
    obtain ⟨x, hx, hxid, ho⟩ := h.withheld id hid hc
    refine ⟨x, List.mem_append_right _ ?_, hxid, ho⟩
    rcases List.mem_append.mp hx with hx | hx
    · refine List.mem_append_right _ (List.mem_filter.mpr ⟨hx, ?_⟩)
      have hlive : a.isCancelled x = false := Bool.eq_false_iff.mpr fun hcx =>
        hc (hxid ▸ isCancelled_iff.mp hcx)
      rw [isOrphan, hlive, ho]
      rfl
    · exact List.mem_append_left _ hx

theorem Loyal.wake (h : a.Loyal) : a.wake.Loyal := by
  unfold Agenda.wake
  refine Loyal.withhold ?_ fun x hx _ ho => ?_
  · refine ⟨h.ran, h.hand, fun id hid hc => ?_⟩
    obtain ⟨x, hx, hxid, ho⟩ := h.withheld id hid hc
    refine ⟨x, ?_, hxid, ho⟩
    rcases List.mem_append.mp hx with hx | hx
    · exact List.mem_append_left _ (List.mem_append_left _ hx)
    · exact List.mem_append_right _ (List.mem_append_left _ hx)
  · obtain ⟨hx, hlive⟩ := List.mem_filter.mp hx
    refine List.mem_append_right _ (List.mem_append_right _ (List.mem_filter.mpr ⟨hx, ?_⟩))
    rw [isOrphan, hlive]
    exact ho

theorem Loyal.take (h : a.Loyal) {index : Nat} {x : Handle J} (hx : a.ready[index]? = some x)
    (hlive : a.isDead x = false) : (a.take index).Loyal := by
  obtain ⟨hindex, hget⟩ := List.getElem?_eq_some_iff.mp hx
  have hxo : a.isCrashedOwned x = false := (Bool.or_eq_false_iff.mp hlive).2
  refine ⟨h.ran, fun y hy => ?_, fun id hid hc => ?_⟩
  · obtain rfl : x = y := Option.some.inj (hx.symm.trans hy)
    exact hxo
  · obtain ⟨y, hy, hyid, ho⟩ := h.withheld id hid hc
    refine ⟨y, ?_, hyid, ho⟩
    rcases List.mem_append.mp hy with hy | hy
    · refine List.mem_append_left _ ?_
      rcases List.mem_cons.mp ((List.getElem_cons_eraseIdx_perm hindex).mem_iff.mpr hy) with rfl | hy
      · rw [hget] at ho
        exact absurd (hxo.symm.trans ho) Bool.false_ne_true
      · exact hy
    · exact List.mem_append_right _ hy

theorem Loyal.run (h : a.Loyal) : a.run.Loyal where
  ran := fun r hr => by
    rcases List.mem_append.mp hr with hr | hr
    · exact h.ran r hr
    · obtain ⟨x, hx, rfl⟩ := List.mem_map.mp hr
      exact h.hand x (Option.mem_toList.mp hx)
  hand := fun _ hx => nomatch hx
  withheld := h.withheld

theorem Loyal.reviveCrashed (h : a.Loyal) : a.reviveCrashed.Loyal where
  ran := h.ran
  hand := fun x _ => by simp [Agenda.reviveCrashed, isCrashedOwned]
  withheld := fun _ hid => absurd hid List.not_mem_nil

theorem keeps_loyal : Transition.Keeps (step (J := J))
    (fun a op => ∀ tasks, op = .crashTasks tasks → a.Spares tasks) Loyal := by
  intro a op a' hspares hl h
  cases op with
  | callSoon call => exact Option.some.inj h ▸ hl.callSoon call
  | callAt time call => exact Option.some.inj h ▸ ⟨hl.ran, hl.hand, hl.withheld⟩
  | cancel id =>
    refine Option.some.inj h ▸ ⟨hl.ran, hl.hand, fun x hx hc => ?_⟩
    exact hl.withheld x hx fun hin => hc (List.mem_cons_of_mem _ hin)
  | crashTasks tasks =>
    exact Option.some.inj h ▸ hl.crashTasks (hspares tasks rfl)
  | dropTops => exact Option.some.inj h ▸ ⟨hl.ran, hl.hand, hl.withheld⟩
  | compactReady => exact Option.some.inj h ▸ hl.compactReady
  | advance time =>
    obtain ⟨_, ha⟩ := Option.ite_none_right_eq_some.mp h
    exact Option.some.inj ha ▸ ⟨hl.ran, hl.hand, hl.withheld⟩
  | wake => exact Option.some.inj h ▸ hl.wake
  | take index =>
    obtain ⟨_, ⟨x, hx, hlive⟩, rfl⟩ := take_some h
    exact hl.take hx hlive
  | run => exact Option.some.inj h ▸ hl.run
  | lose => exact Option.some.inj h ▸ ⟨hl.ran, (fun _ hx => nomatch hx), hl.withheld⟩
  | reviveCrashed => exact Option.some.inj h ▸ hl.reviveCrashed

/-- **Reviving puts what was withheld in the ready list**, once. -/
theorem revived_once (hd : a.Distinct) (hl : a.Loyal) {id : HandleId} (hid : id ∈ a.withheld)
    (hc : id ∉ a.cancelled) : (a.reviveCrashed.ready.map Handle.id).count id = 1 := by
  obtain ⟨x, hx, rfl, _⟩ := hl.withheld id hid hc
  have hd' : a.reviveCrashed.Distinct := keeps_distinct a .reviveCrashed _ trivial hd rfl
  have hsub : List.Sublist (a.reviveCrashed.ready.map Handle.id) a.reviveCrashed.places := by
    refine List.Sublist.map _ ?_
    unfold everywhere
    rw [List.append_assoc, List.append_assoc]
    exact (List.sublist_append_left _ _).trans (List.sublist_append_right _ _)
  exact List.count_eq_one_of_mem (hd'.nodup.sublist hsub) (List.mem_map_of_mem hx)

end Simloom.Agenda
