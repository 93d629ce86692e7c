import Simloom.Loop.Agenda
import Mathlib.Data.List.Perm.Basic
import Mathlib.Data.List.Nodup
import Mathlib.Data.List.TakeWhile
import Mathlib.Algebra.Order.Group.Multiset

/-! Where a handle is.

Every handle that was made is in one place: executed, at hand, ready, scheduled or parked.
An operation moves handles, makes one, or drops cancelled ones (`step_places`); only a step
that ends early loses what it had at hand. -/
namespace Simloom.Agenda
open Theory
variable {J : Type} {a a' : Agenda J}

/-! ### Places -/

/-- All handles, place by place. -/
def everywhere (a : Agenda J) : List (Handle J) :=
  a.ran.map Ran.handle ++ a.hand.toList ++ a.ready ++ a.scheduled ++ a.parked

def places (a : Agenda J) : List HandleId := a.everywhere.map Handle.id

theorem push_perm (h : Handle J) (l : List (Handle J)) : (push h l).Perm (h :: l) := by
  induction l with
  | nil => exact .refl _
  | cons top rest ih =>
    unfold push
    split
    · exact (ih.cons top).trans (.swap h top rest)
    · exact .refl _

/-- The handles that compaction keeps, parks and drops. -/
theorem sort_perm (a : Agenda J) (l : List (Handle J)) :
    l.Perm (l.filter (fun h => !a.isDead h) ++ l.filter a.isOrphan ++ l.filter a.isCancelled) := by
  have hdead : (l.filter a.isDead).Perm (l.filter a.isOrphan ++ l.filter a.isCancelled) := by
    have horphan : (l.filter a.isDead).filter (fun h => !a.isCancelled h) = l.filter a.isOrphan := by
      rw [List.filter_filter]
      exact List.filter_congr fun h _ => by
        unfold isDead isOrphan
        cases a.isCancelled h <;> rfl
    have hcancelled : (l.filter a.isDead).filter a.isCancelled = l.filter a.isCancelled := by
      rw [List.filter_filter]
      exact List.filter_congr fun h _ => by
        unfold isDead
        cases a.isCancelled h <;> rfl
    have hsplit := List.filter_append_perm a.isCancelled (l.filter a.isDead)
    rw [horphan, hcancelled] at hsplit
    exact hsplit.symm.trans List.perm_append_comm
  have hsplit := List.filter_append_perm (fun h => !a.isDead h) l
  simp only [Bool.not_not] at hsplit
  rw [List.append_assoc]
  exact hsplit.symm.trans (hdead.append_left _)

/-- Handles go from place to place, or are dropped. -/
structure Moves (a a' : Agenda J) (dropped : List (Handle J)) : Prop where
  made : a'.made = a.made
  cancelled : ∀ id ∈ a.cancelled, id ∈ a'.cancelled
  perm : a.everywhere.Perm (a'.everywhere ++ dropped)

/-- A handle is made. -/
structure Makes (a a' : Agenda J) (h : Handle J) : Prop where
  made : a'.made = a.made + 1
  id : h.id = a.made
  cancelled : a'.cancelled = a.cancelled
  perm : a'.everywhere.Perm (h :: a.everywhere)

theorem Moves.of_eq (hmade : a'.made = a.made) (hcancelled : ∀ id ∈ a.cancelled, id ∈ a'.cancelled)
    (h : a'.everywhere = a.everywhere) : Moves a a' [] :=
  ⟨hmade, hcancelled, by rw [h, List.append_nil]⟩

/-- Lists of handles, place by place, in any order. -/
theorem perm_of_multiset {l l' : List (Handle J)} (h : (l : Multiset (Handle J)) = l') : l.Perm l' :=
  Multiset.coe_eq_coe.mp h

theorem callSoon_makes (a : Agenda J) (call : Callable J) :
    Makes a (a.callSoon call) (a.next call none) := by
  refine ⟨rfl, rfl, rfl, perm_of_multiset ?_⟩
  rw [← List.singleton_append]
  simp only [everywhere, callSoon, withhold, ← Multiset.coe_add]
  ac_rfl

theorem callAt_makes (a : Agenda J) (time : ℚ) (call : Callable J) :
    Makes a (a.callAt time call) (a.next call (some time)) := by
  refine ⟨rfl, rfl, rfl, perm_of_multiset ?_⟩
  have hpush := Multiset.coe_eq_coe.mpr (push_perm (a.next call (some time)) a.scheduled)
  rw [← List.singleton_append] at hpush ⊢
  simp only [everywhere, callAt, ← Multiset.coe_add, hpush]
  ac_rfl

theorem compactReady_moves (a : Agenda J) :
    Moves a a.compactReady (a.ready.filter a.isCancelled) := by
  refine ⟨rfl, fun _ h => h, perm_of_multiset ?_⟩
  have hsort := Multiset.coe_eq_coe.mpr (sort_perm a a.ready)
  simp only [everywhere, compactReady, park, ← Multiset.coe_add] at hsort ⊢
  rw [hsort]
  ac_rfl

theorem dropTops_moves (a : Agenda J) :
    Moves a a.dropTops (a.scheduled.takeWhile a.isCancelled) := by
  refine ⟨rfl, fun _ h => h, perm_of_multiset ?_⟩
  have hsplit := congrArg (fun l : List (Handle J) => (l : Multiset (Handle J)))
    (List.takeWhile_append_dropWhile (p := a.isCancelled) (l := a.scheduled))
  simp only [everywhere, dropTops, ← Multiset.coe_add] at hsplit ⊢
  rw [← hsplit]
  ac_rfl

theorem wake_moves (a : Agenda J) : Moves a a.wake (a.dueTimers.filter a.isCancelled) := by
  refine ⟨rfl, fun _ h => h, perm_of_multiset ?_⟩
  have hsplit := congrArg (fun l : List (Handle J) => (l : Multiset (Handle J)))
    (List.takeWhile_append_dropWhile (p := fun h : Handle J => h.time ≤ a.now) (l := a.scheduled))
  have hsort := Multiset.coe_eq_coe.mpr (sort_perm a a.dueTimers)
  simp only [everywhere, wake, park, withhold, ← Multiset.coe_add] at hsplit hsort ⊢
  rw [← hsplit, show (a.scheduled.takeWhile fun h => h.time ≤ a.now) = a.dueTimers from rfl, hsort]
  ac_rfl

theorem take_moves {index : Nat} (hhand : a.hand = none) (hindex : index < a.ready.length) :
    Moves a (a.take index) [] := by
  refine ⟨rfl, fun _ h => h, perm_of_multiset ?_⟩
  have herase := Multiset.coe_eq_coe.mpr (List.getElem_cons_eraseIdx_perm hindex)
  rw [← List.singleton_append] at herase
  simp only [everywhere, take, hhand, List.getElem?_eq_getElem hindex, ← Multiset.coe_add,
    ← herase, Option.toList, List.append_nil]
  ac_rfl

theorem run_moves (a : Agenda J) : Moves a a.run [] := by
  refine .of_eq rfl (fun _ h => h) ?_
  simp [everywhere, run, Function.comp_def]

theorem lose_moves (a : Agenda J) : Moves a a.lose a.hand.toList := by
  refine ⟨rfl, fun _ h => h, perm_of_multiset ?_⟩
  simp only [everywhere, lose, ← Multiset.coe_add, Option.toList, Multiset.coe_nil]
  simp only [add_zero]
  ac_rfl

theorem reviveCrashed_moves (a : Agenda J) : Moves a a.reviveCrashed [] := by
  refine ⟨rfl, fun _ h => h, perm_of_multiset ?_⟩
  simp only [everywhere, reviveCrashed, ← Multiset.coe_add, List.append_nil]
  ac_rfl

/-- A step takes a handle that is ready and not dead. -/
theorem take_some {index : Nat} (h : a.step (.take index) = some a') : a.hand = none ∧
    (∃ x, a.ready[index]? = some x ∧ a.isDead x = false) ∧ a' = a.take index := by
  obtain ⟨hguard, ha⟩ := Option.ite_none_right_eq_some.mp h
  obtain ⟨hhand, hready⟩ := Bool.and_eq_true_iff.mp hguard
  obtain ⟨x, hx, hdead⟩ := (Option.any_eq_true _ _).mp hready
  exact ⟨Option.isNone_iff_eq_none.mp hhand, ⟨x, hx, by simpa using hdead⟩,
    (Option.some.inj ha).symm⟩

/-- **What an operation does to the places**: it makes a handle, or moves handles and drops
cancelled ones; what a step had at hand may be lost. -/
theorem step_places {op : Op J} (h : a.step op = some a') :
    (∃ made, Makes a a' made) ∨ ∃ dropped, Moves a a' dropped ∧
      ∀ x ∈ dropped, x.id ∈ a'.cancelled ∨ op = .lose ∧ a.hand = some x := by
  have hfilter (l : List (Handle J)) (x : Handle J) (hx : x ∈ l.filter a.isCancelled) :
      x.id ∈ a.cancelled := isCancelled_iff.mp (List.mem_filter.mp hx).2
  have hnone (P : Handle J → Prop) : ∀ x ∈ ([] : List (Handle J)), P x :=
    fun x hx => absurd hx List.not_mem_nil
  cases op with
  | callSoon call =>
    obtain rfl := Option.some.inj h
    exact .inl ⟨_, callSoon_makes a call⟩
  | callAt time call =>
    obtain rfl := Option.some.inj h
    exact .inl ⟨_, callAt_makes a time call⟩
  | cancel id =>
    obtain rfl := Option.some.inj h
    exact .inr ⟨[], .of_eq rfl (fun _ hid => List.mem_cons_of_mem _ hid) rfl, hnone _⟩
  | crashTasks tasks =>
    obtain rfl := Option.some.inj h
    exact .inr ⟨[], .of_eq rfl (fun _ hid => hid) rfl, hnone _⟩
  | dropTops =>
    obtain rfl := Option.some.inj h
    exact .inr ⟨_, dropTops_moves a, fun x hx =>
      .inl (isCancelled_iff.mp (List.mem_takeWhile_imp hx))⟩
  | compactReady =>
    obtain rfl := Option.some.inj h
    exact .inr ⟨_, compactReady_moves a, fun x hx => .inl (hfilter _ x hx)⟩
  | advance time =>
    obtain ⟨_, ha⟩ := Option.ite_none_right_eq_some.mp h
    obtain rfl := Option.some.inj ha
    exact .inr ⟨[], .of_eq rfl (fun _ hid => hid) rfl, hnone _⟩
  | wake =>
    obtain rfl := Option.some.inj h
    exact .inr ⟨_, wake_moves a, fun x hx => .inl (hfilter _ x hx)⟩
  | take index =>
    obtain ⟨hhand, ⟨x, hx, _⟩, rfl⟩ := take_some h
    obtain ⟨hindex, _⟩ := List.getElem?_eq_some_iff.mp hx
    exact .inr ⟨[], take_moves hhand hindex, hnone _⟩
  | run =>
    obtain rfl := Option.some.inj h
    exact .inr ⟨[], run_moves a, hnone _⟩
  | lose =>
    obtain rfl := Option.some.inj h
    exact .inr ⟨_, lose_moves a, fun x hx => .inr ⟨rfl, Option.mem_toList.mp hx⟩⟩
  | reviveCrashed =>
    obtain rfl := Option.some.inj h
    exact .inr ⟨[], reviveCrashed_moves a, hnone _⟩

/-! ### One place each -/

/-- No handle is in two places, and all of them were made. -/
structure Distinct (a : Agenda J) : Prop where
  nodup : a.places.Nodup
  made : ∀ id ∈ a.places, id < a.made

/-- Every handle that was made and not cancelled is in exactly one place. -/
def Placed (a : Agenda J) : Prop := ∀ id < a.made, id ∉ a.cancelled → a.places.count id = 1

theorem Distinct.placed (h : a.Distinct) :
    a.Placed ↔ ∀ id < a.made, id ∉ a.cancelled → id ∈ a.places := by
  refine forall_congr' fun id => forall_congr' fun _ => forall_congr' fun _ => ⟨fun hc => ?_, ?_⟩
  · exact List.count_pos_iff.mp (by omega)
  · exact List.count_eq_one_of_mem h.nodup

theorem Makes.places {h : Handle J} (hm : Makes a a' h) : a'.places.Perm (a.made :: a.places) := by
  have := hm.perm.map Handle.id
  rwa [List.map_cons, hm.id] at this

theorem Moves.places {dropped : List (Handle J)} (hm : Moves a a' dropped) :
    a.places.Perm (a'.places ++ dropped.map Handle.id) := by
  have := hm.perm.map Handle.id
  rwa [List.map_append] at this

theorem distinct_start (epoch : ℚ) : (start epoch : Agenda J).Distinct :=
  ⟨List.nodup_nil, fun _ h => absurd h List.not_mem_nil⟩

theorem placed_start (epoch : ℚ) : (start epoch : Agenda J).Placed :=
  fun _ h => absurd h (Nat.not_lt_zero _)

theorem keeps_distinct : Transition.Keeps (step (J := J)) (fun _ _ => True) Distinct := by
  intro a op a' _ hd h
  rcases step_places h with ⟨x, hm⟩ | ⟨dropped, hm, _⟩
  · refine ⟨hm.places.nodup_iff.mpr (List.nodup_cons.mpr ⟨fun hid => ?_, hd.nodup⟩), fun id hid => ?_⟩
    · exact Nat.lt_irrefl _ (hd.made _ hid)
    · rw [hm.made]
      rcases List.mem_cons.mp (hm.places.mem_iff.mp hid) with rfl | hid
      · exact Nat.lt_succ_self _
      · exact Nat.lt_succ_of_lt (hd.made id hid)
  · refine ⟨(List.nodup_append.mp (hm.places.nodup_iff.mp hd.nodup)).1, fun id hid => ?_⟩
    rw [hm.made]
    exact hd.made id (hm.places.mem_iff.mpr (List.mem_append_left _ hid))

/-- Work is lost only with the hand. -/
theorem keeps_placed : Transition.Keeps (step (J := J)) (fun _ op => op ≠ .lose)
    fun a => a.Distinct ∧ a.Placed := by
  intro a op a' hop ⟨hd, hp⟩ h
  have hd' := keeps_distinct a op a' trivial hd h
  rw [hd.placed] at hp
  refine ⟨hd', hd'.placed.mpr fun id hid hc => ?_⟩
  rcases step_places h with ⟨x, hm⟩ | ⟨dropped, hm, hdrop⟩
  · rw [hm.places.mem_iff]
    rcases Nat.lt_succ_iff_lt_or_eq.mp (hm.made ▸ hid) with hlt | rfl
    · exact List.mem_cons_of_mem _ (hp id hlt (hm.cancelled ▸ hc))
    · exact List.mem_cons_self
  · have hmem := hp id (hm.made ▸ hid) fun hin => hc (hm.cancelled id hin)
    rcases List.mem_append.mp (hm.places.mem_iff.mp hmem) with hmem | hmem
    · exact hmem
    · obtain ⟨x, hx, rfl⟩ := List.mem_map.mp hmem
      rcases hdrop x hx with hcx | ⟨hl, _⟩
      · exact absurd hcx hc
      · exact absurd hl hop

/-- What is lost was nowhere else. -/
theorem lose_not_placed (hd : a.Distinct) {x : Handle J} (hx : a.hand = some x)
    (hc : a.isCancelled x = false) : ¬ a.lose.Placed := by
  intro hp
  have hm := lose_moves a
  have hid : x.id ∈ a.places := List.mem_map_of_mem (by
    simp [everywhere, hx])
  have hnot : x.id ∉ a.cancelled := fun hin => by rw [isCancelled_iff.mpr hin] at hc; cases hc
  have hcount := hp x.id (hd.made _ hid) hnot
  have hmem : x.id ∈ a.lose.places := List.count_pos_iff.mp (by omega)
  have hnodup := hm.places.nodup_iff.mp hd.nodup
  exact (List.nodup_append.mp hnodup).2.2 _ hmem _ (by simp [hx]) rfl

end Simloom.Agenda
