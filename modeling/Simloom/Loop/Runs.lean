import Simloom.Loop.Follows
import Simloom.Loop.Clock
import Simloom.Loop.Crash

/-! What holds in every run of the loop.

Virtual time is exact. No work is lost or run twice, as long as no step is one too many at
its instant. Crashed tasks do not run and lose no wakeup, as long as garbage collections
crash nothing that has a handle. -/
namespace Simloom
open Theory
variable {R : RandomSource} {σ J κ : Type}

namespace SimLoop

/-- The loop after a run. -/
def after (c : LoopConfig R σ J κ) (l : SimLoop R σ J κ) (es : List (Drive R σ J)) :
    SimLoop R σ J κ := es.foldl (fun l e => (l.drive c e).1) l

variable {c : LoopConfig R σ J κ} {l : SimLoop R σ J κ}

theorem run_after (es : List (Drive R σ J)) :
    Transition.run (move c) l es = some (l.after c es) := by
  induction es generalizing l with
  | nil => rfl
  | cons e rest ih => exact Transition.run_cons.mpr ⟨_, rfl, ih⟩

theorem after_append (before later : List (Drive R σ J)) :
    l.after c (before ++ later) = (l.after c before).after c later := List.foldl_append

/-- What the agenda's operations keep, holds after a run. -/
theorem after_keeps {I : Agenda J → Prop}
    (hkeep : Transition.Keeps Agenda.step (fun _ _ => True) I) (hhand : l.agenda.hand = none)
    (hI : I l.agenda) (es : List (Drive R σ J)) : I (l.after c es).agenda := by
  obtain ⟨⟨ops, hr, _⟩, _⟩ := run_follows_any hhand (run_after (c := c) es)
  exact hkeep.run (Transition.along_of_forall (fun _ _ _ => trivial) _) hI hr

theorem after_hand (hhand : l.agenda.hand = none) (es : List (Drive R σ J)) :
    (l.after c es).agenda.hand = none := (run_follows_any hhand (run_after (c := c) es)).2

/-! ### Virtual time -/

/-- **Virtual time is exact.** -/
theorem virtual_time_exact (c : LoopConfig R σ J κ) (epoch : ℚ) (user : σ) (tape : Tape R)
    (scheduler : κ) (before later : List (Drive R σ J)) :
    let l := (start epoch user tape scheduler).after c before
    let l' := l.after c later
    l.now ≤ l'.now ∧ (l'.agenda.ran.map Ran.time).Pairwise (· ≤ ·) ∧
      (∀ r ∈ l'.agenda.ran, r.handle.id ∉ l'.agenda.shelved → r.OnTime) ∧
      ∀ h ∈ l'.agenda.scheduled, l'.now ≤ max h.time h.made := by
  intro l l'
  have hhand : l.agenda.hand = none := after_hand (c := c) rfl before
  have htimely : l.agenda.Timely :=
    after_keeps Agenda.keeps_timely rfl (Agenda.timely_start epoch) before
  have hlater : l'.agenda.Timely := after_keeps Agenda.keeps_timely hhand htimely later
  have hnow : l.now ≤ l'.agenda.now := after_keeps (Agenda.keeps_now l.now) hhand le_rfl later
  exact ⟨hnow, hlater.ordered, fun r hr hn => Ran.onTime_of_due (hlater.ran r hr hn),
    fun h hin => (hlater.scheduled h hin).2⟩

/-! ### No work is lost -/

/-- Every handle that was made and not cancelled is executed, ready, scheduled or parked, and
only one of these, once. -/
def NothingLost (l : SimLoop R σ J κ) : Prop :=
  ∀ id < l.agenda.made, id ∉ l.agenda.cancelled →
    ((l.agenda.ran.map Ran.handle ++ l.agenda.ready ++ l.agenda.scheduled ++
      l.agenda.parked).map Handle.id).count id = 1

theorem nothingLost_iff (hhand : l.agenda.hand = none) : l.NothingLost ↔ l.agenda.Placed := by
  simp only [NothingLost, Agenda.Placed, Agenda.places, Agenda.everywhere, hhand,
    Option.toList_none, List.append_nil]

theorem execute_late {index count : Nat} {h : Handle J}
    (hlate : c.maxStepsPerInstant < l.countInstant.instantSteps) :
    (l.execute c index count h).1.agenda = (l.agenda.take index).lose := by
  unfold execute
  dsimp only
  rw [if_pos]
  · rfl
  · exact hlate

/-- A step that is one too many loses the handle it took. -/
theorem spent_loses (hhand : l.agenda.hand = none) (hd : l.agenda.Distinct)
    (hspent : l.isSpent c = true) : ¬ (l.runOnce c).1.agenda.Placed := by
  unfold isSpent poised at hspent
  unfold runOnce
  cases hsettle : l.settle c with
  | inl turn => simp [hsettle] at hspent
  | inr m =>
    obtain ⟨hcame, hclean⟩ := (settle_came True True hhand).2 m hsettle
    have hwake := hcame.trans (wake_came m.agenda)
    rw [hsettle] at hspent
    simp only [Option.any_some] at hspent
    unfold choose
    split at hspent
    next => cases hspent
    next first rest hready =>
      simp only [hready]
      obtain ⟨hok, hlate⟩ := Bool.and_eq_true_iff.mp hspent
      split
      next hpick =>
        rw [hpick] at hok
        cases hok
      next index scheduler tape hpick =>
        have hget : m.wake.agenda.ready[index.val]? = some ((first :: rest).get index) := by
          rw [hready]
          exact List.getElem?_eq_getElem index.isLt
        have hlive : m.wake.agenda.isDead ((first :: rest).get index) = false :=
          wake_clean hclean _ (List.mem_of_getElem? hget)
        have htake := hwake.follows.trans
          (take_follows (hwake.hand.trans hhand) hget (wake_clean hclean))
        have hdistinct : (m.wake.agenda.take index).Distinct := Transition.Keeps.reaches
          (Agenda.keeps_distinct.mono fun _ _ _ => trivial) hd htake
        rw [execute_late (l := {m.wake with scheduler := scheduler, tape := tape})
          (of_decide_eq_true hlate)]
        exact Agenda.lose_not_placed hdistinct hget (Bool.or_eq_false_iff.mp hlive).1

/-- The step is not one too many. -/
def InTime (c : LoopConfig R σ J κ) (l : SimLoop R σ J κ) (e : Drive R σ J) : Prop :=
  e = .once → l.isSpent c = false

/-- **No work is lost or run twice** in a run exactly if no step is one too many. -/
theorem nothing_lost_iff (c : LoopConfig R σ J κ) (epoch : ℚ) (user : σ) (tape : Tape R)
    (scheduler : κ) (es : List (Drive R σ J)) :
    (∀ before later, es = before ++ later →
        ((start epoch user tape scheduler).after c before).NothingLost) ↔
      Transition.Along (move c) (InTime c) (start epoch user tape scheduler) es := by
  let l : SimLoop R σ J κ := start epoch user tape scheduler
  have hidle (es : List (Drive R σ J)) : (l.after c es).agenda.hand = none := after_hand rfl es
  constructor
  · refine fun h => Transition.along_iff.mpr fun before e later m hes hm he => ?_
    obtain rfl : l.after c before = m := Option.some.inj ((run_after before).symm.trans hm)
    have hd : (l.after c before).agenda.Distinct :=
      after_keeps Agenda.keeps_distinct rfl (Agenda.distinct_start epoch) before
    refine Bool.eq_false_iff.mpr fun hspent => spent_loses (hidle before) hd hspent ?_
    have hafter := h (before ++ [e]) later (by rw [hes, List.append_assoc]; rfl)
    rw [nothingLost_iff (hidle _), after_append] at hafter
    rw [he] at hafter
    exact hafter
  · rintro h before later rfl
    have hcareful : Transition.Along (move c) (Careful False True c) l before :=
      h.before.mono fun l e hin => ⟨fun he hspent => absurd ((hin he).symm.trans hspent) nofun,
        fun _ _ => trivial⟩
    obtain ⟨hfollows, hhand⟩ := run_follows rfl hcareful (run_after before)
    refine (nothingLost_iff hhand).mpr (Transition.Keeps.reaches (Agenda.keeps_placed.mono ?_)
      ⟨Agenda.distinct_start epoch, Agenda.placed_start epoch⟩ hfollows).2
    exact fun a op hop hlose => by rw [hlose] at hop; exact hop

instance (l : SimLoop R σ J κ) : Decidable l.NothingLost :=
  inferInstanceAs (Decidable (∀ id < l.agenda.made, id ∉ l.agenda.cancelled →
    ((l.agenda.ran.map Ran.handle ++ l.agenda.ready ++ l.agenda.scheduled ++
      l.agenda.parked).map Handle.id).count id = 1))

/-- Two handles are ready, and one step is allowed: the second is lost. -/
theorem livelock_loses_handle : ¬ ∀ (c : LoopConfig zeroSource Nat Nat Unit)
    (es : List (Drive zeroSource Nat Nat)),
      ((start 0 0 (.generate 0) ()).after c es).NothingLost := by
  intro h
  have hlost := h (scriptedLoop (fun _ => []) [] 0 1)
    [does [.callSoon ⟨0, none⟩, .callSoon ⟨1, none⟩], .once, .once]
  exact absurd hlost (by decide +kernel)

/-! ### Crashed tasks -/

/-- No handle of a crashed task ran. -/
def CrashedRest (l : SimLoop R σ J κ) : Prop :=
  ∀ r ∈ l.agenda.ran, ∀ task ∈ r.handle.call.self, task ∉ r.crashed

/-- Reviving puts every handle that was withheld from a crashed task in the ready list, once. -/
def RevivesOnce (l : SimLoop R σ J κ) : Prop :=
  ∀ id ∈ l.agenda.withheld, id ∉ l.agenda.cancelled →
    (l.reviveCrashed.agenda.ready.map Handle.id).count id = 1

/-- The step collects no garbage that crashes the task of the handle it has picked. -/
def Spared (c : LoopConfig R σ J κ) (l : SimLoop R σ J κ) (e : Drive R σ J) : Prop :=
  e = .once → l.Calm c

/-- **A crashed task does not run and loses no wakeup**, where no garbage collection crashes
the task that its step is about to run. -/
theorem crashed_rest (c : LoopConfig R σ J κ) (epoch : ℚ) (user : σ) (tape : Tape R)
    (scheduler : κ) (es : List (Drive R σ J))
    (h : Transition.Along (move c) (Spared c) (start epoch user tape scheduler) es) :
    ∀ before later, es = before ++ later →
      let l := (start epoch user tape scheduler).after c before
      l.CrashedRest ∧ l.RevivesOnce := by
  rintro before later rfl l
  have hcareful : Transition.Along (move c) (Careful True False c)
      (start epoch user tape scheduler) before :=
    h.before.mono fun l e hin => ⟨fun _ _ => trivial, fun he hcalm => hcalm (hin he)⟩
  obtain ⟨hfollows, _⟩ := run_follows rfl hcareful (run_after before)
  have hd : l.agenda.Distinct :=
    after_keeps Agenda.keeps_distinct rfl (Agenda.distinct_start epoch) before
  have hloyal : l.agenda.Loyal := by
    refine Transition.Keeps.reaches (Agenda.keeps_loyal.mono fun a op hop tasks hcrash => ?_)
      (Agenda.loyal_start epoch) hfollows
    rw [hcrash] at hop
    exact hop.resolve_left not_false
  refine ⟨fun r hr task hself hin => ?_, fun id hid hc => Agenda.revived_once hd hloyal hid hc⟩
  have hrest := hloyal.ran r hr
  rw [hself] at hrest
  exact of_decide_eq_false hrest hin

/-- A task crashes while its handle is ready, and is revived. -/
theorem crashed_rest_sample : let es : List (Drive zeroSource Nat Nat) :=
      [does [.callSoon ⟨0, some 7⟩, .callSoon ⟨1, none⟩, .crashTasks [7]], .once]
    ∀ before later, es = before ++ later →
      let l := (start 0 0 (.generate 0) ()).after (scriptedLoop (fun _ => []) [] 0 10) before
      l.CrashedRest ∧ l.RevivesOnce :=
  crashed_rest _ 0 0 (.generate 0) () _
    (Transition.along_of_forall (fun _ _ l _ => l.calm_of_never _ rfl) _)

instance (l : SimLoop R σ J κ) : Decidable l.CrashedRest :=
  inferInstanceAs (Decidable (∀ r ∈ l.agenda.ran, ∀ task ∈ r.handle.call.self, task ∉ r.crashed))

/-- A finalizer crashes the task whose handle the step has taken, and the step runs it. -/
theorem collected_crash_runs : ¬ ∀ (c : LoopConfig zeroSource Nat Nat Unit)
    (es : List (Drive zeroSource Nat Nat)),
      let l := (start 0 0 (.generate 0) ()).after c es
      l.CrashedRest ∧ l.RevivesOnce := by
  intro h
  have hrun := (h (scriptedLoop (fun _ => []) [.crashTasks [7]] 1 10)
    [does [.callSoon ⟨0, some 7⟩], .once]).1
  exact absurd hrun (by decide +kernel)

end SimLoop

end Simloom
