import Simloom.Loop.Placement

/-! Virtual time.

The clock moves only when nothing is ready, and never past a timer. So a ready handle
that was not parked is due exactly now, and a scheduled one is not overdue (`Timely`):
what runs, runs when it is due. -/
namespace Simloom
open Theory
variable {J : Type}

/-- A handle ran exactly when it should. -/
def Ran.OnTime (r : Ran J) : Prop :=
  match r.handle.timer with
  | none => r.time = r.handle.made
  | some when => r.time = max when r.handle.made

theorem Ran.onTime_of_due {r : Ran J} (h : r.time = r.handle.due) : r.OnTime := by
  unfold OnTime
  cases ht : r.handle.timer with
  | none => simpa [Handle.due, Handle.time, ht] using h
  | some when => simpa [Handle.due, Handle.time, ht] using h

namespace Agenda
variable {a a' : Agenda J}

structure Timely (a : Agenda J) : Prop where
  ready : ∀ h ∈ a.ready, h.id ∉ a.shelved → a.now = h.due
  hand : ∀ h ∈ a.hand, h.id ∉ a.shelved → a.now = h.due
  parked : ∀ h ∈ a.parked, h.id ∈ a.shelved
  scheduled : ∀ h ∈ a.scheduled, h.made ≤ a.now ∧ a.now ≤ h.due
  sorted : a.scheduled.Pairwise fun h k => h.time ≤ k.time
  ran : ∀ r ∈ a.ran, r.handle.id ∉ a.shelved → r.time = r.handle.due
  past : ∀ r ∈ a.ran, r.time ≤ a.now
  ordered : (a.ran.map Ran.time).Pairwise (· ≤ ·)

theorem timely_start (epoch : ℚ) : (start epoch : Agenda J).Timely where
  ready := fun _ h => absurd h List.not_mem_nil
  hand := fun _ h => nomatch h
  parked := fun _ h => absurd h List.not_mem_nil
  scheduled := fun _ h => absurd h List.not_mem_nil
  sorted := .nil
  ran := fun _ h => absurd h List.not_mem_nil
  past := fun _ h => absurd h List.not_mem_nil
  ordered := .nil

/-! ### The heap -/

theorem mem_push {h x : Handle J} {l : List (Handle J)} : x ∈ push h l ↔ x = h ∨ x ∈ l :=
  (push_perm h l).mem_iff.trans List.mem_cons

theorem sorted_push (h : Handle J) {l : List (Handle J)}
    (hl : l.Pairwise fun x y => x.time ≤ y.time) : (push h l).Pairwise fun x y => x.time ≤ y.time := by
  induction l with
  | nil => exact List.pairwise_singleton _ _
  | cons top rest ih =>
    obtain ⟨htop, hrest⟩ := List.pairwise_cons.mp hl
    unfold push
    split
    next hle =>
      refine List.pairwise_cons.mpr ⟨fun x hx => ?_, ih hrest⟩
      rcases mem_push.mp hx with rfl | hx
      · exact hle
      · exact htop x hx
    next hlt =>
      have hle : h.time ≤ top.time := (not_le.mp hlt).le
      refine List.pairwise_cons.mpr ⟨fun x hx => ?_, hl⟩
      rcases List.mem_cons.mp hx with rfl | hx
      · exact hle
      · exact hle.trans (htop x hx)

/-- A time that does not pass the top of the heap passes no timer. -/
theorem Timely.top_le (h : a.Timely) {time : ℚ} (htop : ∀ top ∈ a.scheduled.head?, time ≤ top.time) :
    ∀ x ∈ a.scheduled, time ≤ x.time := by
  have hsorted := h.sorted
  cases hs : a.scheduled with
  | nil => exact fun x hx => absurd hx List.not_mem_nil
  | cons top rest =>
    rw [hs] at htop hsorted
    have hle : time ≤ top.time := htop top rfl
    intro x hx
    rcases List.mem_cons.mp hx with rfl | hx
    · exact hle
    · exact hle.trans ((List.pairwise_cons.mp hsorted).1 x hx)

theorem Timely.dropWhile (h : a.Timely) (p : Handle J → Bool) :
    Timely {a with scheduled := a.scheduled.dropWhile p} :=
  { h with
    scheduled := fun x hx => h.scheduled x ((List.dropWhile_sublist p).subset hx)
    sorted := h.sorted.sublist (List.dropWhile_sublist p) }

/-! ### Each operation -/

theorem Timely.park (h : a.Timely) (hs : List (Handle J)) : (a.park hs).Timely where
  ready := fun x hx hn => h.ready x hx fun hin => hn (List.mem_append_left _ hin)
  hand := fun x hx hn => h.hand x hx fun hin => hn (List.mem_append_left _ hin)
  parked := fun x hx => by
    rcases List.mem_append.mp hx with hx | hx
    · exact List.mem_append_left _ (h.parked x hx)
    · exact List.mem_append_right _ (List.mem_map_of_mem hx)
  scheduled := h.scheduled
  sorted := h.sorted
  ran := fun r hr hn => h.ran r hr fun hin => hn (List.mem_append_left _ hin)
  past := h.past
  ordered := h.ordered

theorem Timely.enqueue (h : a.Timely) {hs : List (Handle J)} (hdue : ∀ x ∈ hs, a.now = x.due) :
    Timely {a with ready := a.ready ++ hs} :=
  { h with
    ready := fun x hx hn => by
      rcases List.mem_append.mp hx with hx | hx
      · exact h.ready x hx hn
      · exact hdue x hx }

theorem Timely.callSoon (h : a.Timely) (call : Callable J) : (a.callSoon call).Timely := by
  have hq : Timely {a with ready := a.ready ++ [a.next call none]} := h.enqueue fun x hx => by
    rw [List.mem_singleton.mp hx]
    exact (max_self a.now).symm
  exact ⟨hq.ready, hq.hand, hq.parked, hq.scheduled, hq.sorted, hq.ran, hq.past, hq.ordered⟩

theorem Timely.callAt (h : a.Timely) (time : ℚ) (call : Callable J) : (a.callAt time call).Timely :=
  { h with
    scheduled := fun x hx => by
      rcases mem_push.mp hx with rfl | hx
      · exact ⟨le_refl _, le_max_right _ _⟩
      · exact h.scheduled x hx
    sorted := sorted_push _ h.sorted }

theorem Timely.compactReady (h : a.Timely) : a.compactReady.Timely := by
  have hq : Timely {a with ready := a.ready.filter fun h => !a.isDead h} :=
    { h with ready := fun x hx => h.ready x (List.mem_filter.mp hx).1 }
  exact hq.park _

/-- What falls due is due now. -/
theorem Timely.dueTimers (h : a.Timely) : ∀ x ∈ a.dueTimers, a.now = x.due := by
  intro x hx
  have htime : decide (x.time ≤ a.now) = true :=
    List.mem_takeWhile_imp (p := fun x : Handle J => x.time ≤ a.now) hx
  obtain ⟨hmade, hdue⟩ := h.scheduled x ((List.takeWhile_sublist _).subset hx)
  exact le_antisymm hdue (max_le (of_decide_eq_true htime) hmade)

theorem Timely.wake (h : a.Timely) : a.wake.Timely := by
  have hdue : ∀ x ∈ a.dueTimers.filter fun x => !a.isDead x, a.now = x.due :=
    fun x hx => h.dueTimers x (List.mem_filter.mp hx).1
  have hq := (h.dropWhile fun x => x.time ≤ a.now).enqueue hdue
  have hp := hq.park (a.dueTimers.filter a.isOrphan)
  exact ⟨hp.ready, hp.hand, hp.parked, hp.scheduled, hp.sorted, hp.ran, hp.past, hp.ordered⟩

theorem Timely.advance (h : a.Timely) {time : ℚ} (ha : a.Awaits time) :
    Timely {a with now := time} := by
  obtain ⟨hready, hhand, hnow, htop⟩ := ha
  exact
    { h with
      ready := fun x hx => by
        rw [hready] at hx
        exact absurd hx List.not_mem_nil
      hand := fun x hx => by
        rw [Option.mem_def, hhand] at hx
        cases hx
      scheduled := fun x hx => ⟨(h.scheduled x hx).1.trans hnow,
        (h.top_le htop x hx).trans (le_max_left _ _)⟩
      past := fun r hr => (h.past r hr).trans hnow }

theorem Timely.take (h : a.Timely) (index : Nat) : (a.take index).Timely :=
  { h with
    ready := fun x hx => h.ready x ((List.eraseIdx_sublist _ _).subset hx)
    hand := fun x hx => h.ready x (List.mem_of_getElem? hx) }

theorem Timely.run (h : a.Timely) : a.run.Timely := by
  have hnew (r : Ran J) (hr : r ∈ a.hand.toList.map fun x => (⟨x, a.now, a.crashed⟩ : Ran J)) :
      r.handle ∈ a.hand ∧ r.time = a.now := by
    obtain ⟨x, hx, rfl⟩ := List.mem_map.mp hr
    exact ⟨Option.mem_toList.mp hx, rfl⟩
  exact
    { h with
      hand := fun _ hx => nomatch hx
      ran := fun r hr hn => by
        rcases List.mem_append.mp hr with hr | hr
        · exact h.ran r hr hn
        · obtain ⟨hhand, htime⟩ := hnew r hr
          exact htime.trans (h.hand _ hhand hn)
      past := fun r hr => by
        rcases List.mem_append.mp hr with hr | hr
        · exact h.past r hr
        · exact (hnew r hr).2.le
      ordered := by
        rw [Agenda.run, List.map_append]
        refine List.pairwise_append.mpr ⟨h.ordered, ?_, fun t ht u hu => ?_⟩
        · cases a.hand with
          | none => exact .nil
          | some x => exact List.pairwise_singleton _ _
        · obtain ⟨r, hr, rfl⟩ := List.mem_map.mp ht
          obtain ⟨r', hr', rfl⟩ := List.mem_map.mp hu
          exact (h.past r hr).trans (hnew r' hr').2.ge }

theorem Timely.reviveCrashed (h : a.Timely) : a.reviveCrashed.Timely :=
  { h with
    ready := fun x hx hn => by
      rcases List.mem_append.mp hx with hx | hx
      · exact h.ready x hx hn
      · exact absurd (h.parked x hx) hn
    parked := fun _ hx => absurd hx List.not_mem_nil }

theorem keeps_timely : Transition.Keeps (step (J := J)) (fun _ _ => True) Timely := by
  intro a op a' _ ht h
  cases op with
  | callSoon call => exact Option.some.inj h ▸ ht.callSoon call
  | callAt time call => exact Option.some.inj h ▸ ht.callAt time call
  | cancel id =>
    exact Option.some.inj h ▸ ⟨ht.ready, ht.hand, ht.parked, ht.scheduled, ht.sorted, ht.ran,
      ht.past, ht.ordered⟩
  | crashTasks tasks =>
    exact Option.some.inj h ▸ ⟨ht.ready, ht.hand, ht.parked, ht.scheduled, ht.sorted, ht.ran,
      ht.past, ht.ordered⟩
  | dropTops => exact Option.some.inj h ▸ ht.dropWhile _
  | compactReady => exact Option.some.inj h ▸ ht.compactReady
  | advance time =>
    obtain ⟨hawaits, ha⟩ := Option.ite_none_right_eq_some.mp h
    exact Option.some.inj ha ▸ ht.advance hawaits
  | wake => exact Option.some.inj h ▸ ht.wake
  | take index =>
    obtain ⟨_, _, rfl⟩ := take_some h
    exact ht.take index
  | run => exact Option.some.inj h ▸ ht.run
  | lose => exact Option.some.inj h ▸ { ht with hand := fun _ hx => nomatch hx }
  | reviveCrashed => exact Option.some.inj h ▸ ht.reviveCrashed

/-- The clock never goes back. -/
theorem keeps_now (time : ℚ) :
    Transition.Keeps (step (J := J)) (fun _ _ => True) fun a => time ≤ a.now := by
  intro a op a' _ hle h
  cases op with
  | advance next =>
    obtain ⟨hawaits, ha⟩ := Option.ite_none_right_eq_some.mp h
    exact Option.some.inj ha ▸ hle.trans hawaits.2.2.1
  | take index =>
    obtain ⟨_, _, rfl⟩ := take_some h
    exact hle
  | _ => exact Option.some.inj h ▸ hle

end Agenda

end Simloom
