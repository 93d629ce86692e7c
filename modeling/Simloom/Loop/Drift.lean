import Simloom.Loop.Causal

/-! What may be run, between steps.

Where the loop runs no code, it makes nothing and logs no step (`Passive`), and time passes
only where nothing is ready (`Drift`). -/
namespace Simloom.SimLoop
open Theory
variable {R : RandomSource} {σ J κ : Type} {c : LoopConfig R σ J κ} {l l' : SimLoop R σ J κ}

/-- Nothing is made. What may be run was ready at the same time, or comes from a timer. -/
structure Drift (a a' : Agenda J) : Prop where
  now : a.now ≤ a'.now
  ready : ∀ h ∈ a'.ready, a'.isCancelled h = false →
    (a'.now = a.now ∧ h ∈ a.ready ∧ a.isCancelled h = false) ∨ h ∈ a.scheduled
  scheduled : ∀ h ∈ a'.scheduled, h ∈ a.scheduled

theorem Drift.refl (a : Agenda J) : Drift a a :=
  ⟨le_rfl, fun _ hin hlive => .inl ⟨rfl, hin, hlive⟩, fun _ hin => hin⟩

theorem Drift.trans {a b d : Agenda J} (h : Drift a b) (h' : Drift b d) : Drift a d where
  now := h.now.trans h'.now
  ready k hin hlive := by
    rcases h'.ready k hin hlive with ⟨hnow, hin, hlive⟩ | hin
    · refine (h.ready k hin hlive).imp_left fun ⟨hnow', hrest⟩ => ?_
      exact ⟨hnow.trans hnow', hrest⟩
    · exact .inr (h.scheduled k hin)
  scheduled k hin := h.scheduled k (h'.scheduled k hin)

/-- Where no time passes and no timer is woken. -/
theorem Drift.of_subset {a a' : Agenda J} (hnow : a'.now = a.now) (hready : a'.ready ⊆ a.ready)
    (hscheduled : a'.scheduled ⊆ a.scheduled) (hcancelled : a.cancelled ⊆ a'.cancelled) :
    Drift a a' where
  now := hnow.ge
  ready h hin hlive := by
    refine .inl ⟨hnow, hready hin, Bool.eq_false_iff.mpr fun hdead => ?_⟩
    have hin := hcancelled (Agenda.isCancelled_iff.mp hdead)
    rw [Agenda.isCancelled_iff.mpr hin] at hlive
    cases hlive
  scheduled _ hin := hscheduled hin

theorem drift_compact (a : Agenda J) : Drift a a.compact :=
  .of_subset (Agenda.compact_now a) (by rw [Agenda.compact_ready]; exact List.filter_subset_self _)
    (by rw [Agenda.compact_scheduled]; exact fun _ hin => hin)
    (by rw [compact_cancelled]; exact fun _ hin => hin)

theorem drift_tidy (l : SimLoop R σ J κ) : Drift l.agenda l.tidy.agenda := by
  refine Drift.trans ?_ (drift_compact l.agenda.dropTops)
  exact .of_subset rfl (fun _ hin => hin) (List.dropWhile_sublist _).subset fun _ hin => hin

theorem drift_wake (a : Agenda J) : Drift a a.wake where
  now := le_rfl
  ready h hin hlive := by
    rcases List.mem_append.mp hin with hin | hin
    · exact .inl ⟨rfl, hin, hlive⟩
    · exact .inr ((List.takeWhile_sublist _).subset (List.mem_filter.mp hin).1)
  scheduled h hin := (List.dropWhile_sublist _).subset hin

/-- Time passes only where nothing is ready. -/
theorem drift_arrive {time : ℚ} (hready : l.agenda.ready = []) (hle : l.now ≤ time) :
    Drift l.agenda (l.arrive time).agenda where
  now := hle
  ready h hin := by
    rw [show (l.arrive time).agenda.ready = [] from hready] at hin
    cases hin
  scheduled _ hin := hin

theorem drift_jump {target : ℚ} (hready : l.agenda.ready = []) :
    Drift l.agenda (l.jump target).agenda := by
  unfold jump
  split
  next hlt => exact drift_arrive hready hlt.le
  next => exact .refl _

theorem settle_drift : (∀ turn, l.settle c = .inl turn → Drift l.agenda turn.1.agenda) ∧
    ∀ m, l.settle c = .inr m → Drift l.agenda m.agenda := by
  have htidy := drift_tidy l
  have hs := settles c l
  generalize l.settle c = s at hs
  cases hs with
  | ready =>
    refine ⟨fun turn h => (nomatch h), fun m h => ?_⟩
    cases h
    exact htidy
  | deadlock =>
    refine ⟨fun turn h => ?_, fun m h => (nomatch h)⟩
    cases h
    exact htidy
  | @due _ _ deadline hready =>
    refine ⟨fun turn h => ?_, fun m h => (nomatch h)⟩
    cases h
    unfold checkDue
    rw [conclude_agenda]
    exact htidy.trans (drift_arrive hready ((tidy_now l).trans_le (le_max_left _ _)))
  | jump hready =>
    refine ⟨fun turn h => (nomatch h), fun m h => ?_⟩
    cases h
    exact htidy.trans (drift_jump hready)

theorem nextStep_drift {p : Pick R σ J κ} (hp : l.nextStep c = some p) :
    Drift l.agenda p.loop.agenda := by
  unfold nextStep poised at hp
  cases hsettle : l.settle c with
  | inl turn =>
    rw [hsettle] at hp
    cases hp
  | inr m =>
    rw [hsettle] at hp
    obtain ⟨_, _, hagenda, _⟩ := choose_of_picks hp
    rw [hagenda]
    exact (settle_drift.2 m hsettle).trans (drift_wake m.agenda)

theorem choose_agenda_of_none (hp : l.picks c = none) : (l.choose c).1.agenda = l.agenda := by
  unfold picks at hp
  unfold choose
  split
  next => rfl
  next first rest hready =>
    rw [hready] at hp
    dsimp only at hp
    split
    next => rfl
    next hpick =>
      rw [hpick] at hp
      cases hp

theorem runOnce_drift (hnext : l.nextStep c = none) : Drift l.agenda (l.runOnce c).1.agenda := by
  unfold nextStep poised at hnext
  unfold runOnce
  cases hsettle : l.settle c with
  | inl turn => exact settle_drift.1 turn hsettle
  | inr m =>
    rw [hsettle] at hnext
    show Drift l.agenda (m.wake.choose c).1.agenda
    rw [choose_agenda_of_none hnext]
    exact (settle_drift.2 m hsettle).trans (drift_wake m.agenda)

theorem nextDrained_drift {p : Pick R σ J κ} (hp : l.nextDrained c = some p) :
    Drift l.agenda p.loop.agenda := by
  obtain ⟨_, _, hagenda, _⟩ := choose_of_picks hp
  rw [hagenda]
  exact drift_compact l.agenda

theorem drainReady_drift (hnext : l.nextDrained c = none) :
    Drift l.agenda (l.drainReady c 1).1.agenda := by
  have hagenda : (l.drainReady c 1).1.agenda = l.agenda.compact := by
    unfold nextDrained picks at hnext
    unfold drainReady
    dsimp only at hnext ⊢
    split
    next => rfl
    next first rest hready =>
      rw [hready] at hnext
      dsimp only at hnext
      split
      next => rfl
      next hpick =>
        rw [hpick] at hnext
        cases hnext
  rw [hagenda]
  exact drift_compact l.agenda

theorem drainReady_agenda {p : Pick R σ J κ} (hp : l.nextDrained c = some p) :
    (l.drainReady c 1).1.agenda = (p.loop.drainStep c p.index p.count p.handle).1.agenda := by
  obtain ⟨first, rest, index, scheduler, tape, hready, hpick, rfl⟩ := picks_some hp
  dsimp only at hready hpick
  simp only [SimLoop.drainReady, hready, hpick]
  split
  next hstep => rw [hstep]
  next hstep =>
    rw [hstep]
    rfl

/-- Nothing is made and no step is logged. -/
structure Passive (l l' : SimLoop R σ J κ) : Prop where
  causes : l'.causes = l.causes
  currentStep : l'.currentStep = l.currentStep
  stepSeq : l'.stepSeq = l.stepSeq
  steps : l'.steps = l.steps
  made : l'.agenda.made = l.agenda.made
  distinct : l.agenda.Distinct → l'.agenda.Distinct
  drift : Drift l.agenda l'.agenda

theorem Quiet.passive (hq : Quiet l l') (hd : Drift l.agenda l'.agenda) : Passive l l' :=
  ⟨hq.causes, hq.currentStep, hq.stepSeq, hq.steps, hq.made, hq.distinct, hd⟩

/-- Only what is no part of the agenda changes. -/
theorem Quiet.idle (hq : Quiet l l') (hagenda : l'.agenda = l.agenda) : Passive l l' :=
  hq.passive (hagenda ▸ .refl _)

end Simloom.SimLoop
