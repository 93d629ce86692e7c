import Simloom.Loop.Watch

/-! What the monitors find.

A sweep stops at the first violation, and reports it with the monitor's place; without one
it has settled every monitor (`sweep_some`, `sweep_none`). A liveness monitor is reported
only while it is owed something. -/
namespace Simloom
variable {R : RandomSource} {σ J κ : Type}

/-! ### Sweeps -/

section Sweep
variable {α : Type} {f : Nat → α → α × Option Violation}

theorem sweep_keeps {P : α → Prop} (hf : ∀ i x, P x → P (f i x).1) (i : Nat) {l : List α}
    (h : ∀ x ∈ l, P x) : ∀ x ∈ (sweep f i l).1, P x := by
  induction l generalizing i with
  | nil => exact nofun
  | cons x rest ih =>
    obtain ⟨hx, hrest⟩ := List.forall_mem_cons.mp h
    unfold sweep
    split
    next x' v hv =>
      refine List.forall_mem_cons.mpr ⟨?_, hrest⟩
      have hkeep := hf i x hx
      rwa [hv] at hkeep
    next x' hv =>
      refine List.forall_mem_cons.mpr ⟨?_, ih (i + 1) hrest⟩
      have hkeep := hf i x hx
      rwa [hv] at hkeep

/-- The violation that a sweep reports is that of one monitor. -/
theorem sweep_some {i : Nat} {l : List α} {v : Violation} (h : (sweep f i l).2 = some v) :
    ∃ j x, l[j]? = some x ∧ (f (i + j) x).2 = some v ∧
      (sweep f i l).1[j]? = some (f (i + j) x).1 := by
  induction l generalizing i with
  | nil => cases h
  | cons x rest ih =>
    unfold sweep at h ⊢
    split at h
    next x' v' hv =>
      refine ⟨0, x, rfl, ?_, ?_⟩
      · rw [Nat.add_zero, hv]
        exact h
      · rw [Nat.add_zero, hv]
        rfl
    next x' hv =>
      obtain ⟨j, y, hy, hfy, hget⟩ := ih h
      have hindex : i + (j + 1) = i + 1 + j := by omega
      exact ⟨j + 1, y, hy, hindex ▸ hfy, hindex ▸ hget⟩

/-- Without a violation every monitor is settled. -/
theorem sweep_none {i : Nat} {l : List α} (h : (sweep f i l).2 = none) :
    ∀ y ∈ (sweep f i l).1, ∃ j, ∃ x ∈ l, (f j x).2 = none ∧ y = (f j x).1 := by
  induction l generalizing i with
  | nil => exact nofun
  | cons x rest ih =>
    unfold sweep at h ⊢
    split at h
    next x' v' hv => cases h
    next x' hv =>
      refine List.forall_mem_cons.mpr ⟨⟨i, x, List.mem_cons_self, ?_⟩, fun y hy => ?_⟩
      · rw [hv]
        exact ⟨rfl, rfl⟩
      · obtain ⟨j, z, hz, hfz⟩ := ih h y hy
        exact ⟨j, z, List.mem_cons_of_mem _ hz, hfz⟩

/-- What each monitor keeps of a list, the sweep keeps. -/
theorem sweep_filterMap {β : Type} {owed : α → Option β} {p : β → Bool}
    (hf : ∀ i x, (f i x).2 = none → owed (f i x).1 = (owed x).filter p) {i : Nat} {l : List α}
    (h : (sweep f i l).2 = none) :
    (sweep f i l).1.filterMap owed = (l.filterMap owed).filter p := by
  induction l generalizing i with
  | nil => rfl
  | cons x rest ih =>
    unfold sweep at h ⊢
    split at h
    next x' v hv => cases h
    next x' hv =>
      have hx : owed x' = (owed x).filter p := by
        have hx := hf i x (by rw [hv])
        rwa [hv] at hx
      dsimp only
      rw [List.filterMap_cons, List.filterMap_cons, hx, ih h]
      cases owed x with
      | none => rfl
      | some d => cases hp : p d <;> simp [Option.filter, hp]

end Sweep

/-! ### One monitor -/

/-- What a report about a goal says. -/
structure Eventually.Reported (s : σ) (now : ℚ) (i : Nat) (e : Eventually σ) (v : Violation) :
    Prop where
  source : v.source = .eventually i
  kind : v.kind = .liveness
  unmet : e.satisfied = false
  fails : e.predicate s now = false

structure LeadsTo.Reported (s : σ) (now : ℚ) (i : Nat) (m : LeadsTo σ) (v : Violation) :
    Prop where
  source : v.source = .leadsTo i
  kind : v.kind = .liveness
  armed : m.armedDeadline.isSome = true
  fails : m.response s now = false

namespace Eventually
variable {s : σ} {now : ℚ} {i : Nat} {e : Eventually σ} {v : Violation}

theorem fireDue_some (h : (e.fireDue s now i).2 = some v) :
    e.Reported s now i v ∧ v.t = e.deadline ∧ e.deadline ≤ now ∧ (e.fireDue s now i).1 = e := by
  unfold fireDue demand at h ⊢
  split at h
  next hdue =>
    obtain ⟨hunmet, hle⟩ := Bool.and_eq_true_iff.mp hdue
    split at h
    next => cases h
    next hfails =>
      obtain rfl := Option.some.inj h
      rw [if_pos hdue, if_neg hfails]
      exact ⟨⟨rfl, rfl, (Bool.not_eq_true' _).mp hunmet, Bool.eq_false_iff.mpr hfails⟩, rfl,
        of_decide_eq_true hle, rfl⟩
  next => cases h

/-- A goal that is not reported at the end is met. -/
theorem finalize_none (h : (e.finalize s now i).2 = none) :
    (e.finalize s now i).1.satisfied = true := by
  unfold finalize demand at h ⊢
  split at h
  next hunmet =>
    split at h
    next hholds => rw [if_pos hunmet, if_pos hholds]
    next => cases h
  next hmet =>
    rw [if_neg hmet]
    simpa using hmet

end Eventually

namespace LeadsTo
variable {s : σ} {now : ℚ} {i : Nat} {m : LeadsTo σ} {v : Violation}

theorem fireDue_some (h : (m.fireDue s now i).2 = some v) :
    m.Reported s now i v ∧ m.armedDeadline = some v.t ∧ v.t ≤ now ∧ (m.fireDue s now i).1 = m := by
  unfold fireDue at h ⊢
  split at h
  next deadline harmed =>
    split at h
    next hle =>
      split at h
      next => cases h
      next hfails =>
        obtain rfl := Option.some.inj h
        rw [harmed]
        dsimp only
        rw [if_pos hle, if_neg hfails]
        exact ⟨⟨rfl, rfl, harmed ▸ rfl, Bool.eq_false_iff.mpr hfails⟩, rfl, hle, rfl⟩
    next => cases h
  next => cases h

theorem finalize_none (h : (m.finalize s now i).2 = none) :
    (m.finalize s now i).1 = m ∧ (m.armedDeadline.isSome = true → m.response s now = true) := by
  unfold finalize at h ⊢
  split at h
  next => cases h
  next hnot =>
    rw [if_neg hnot]
    refine ⟨rfl, fun harmed => ?_⟩
    simpa [harmed] using hnot

end LeadsTo

/-- Safety is reported by a safety monitor. -/
theorem Always.check_source {s : σ} {now : ℚ} {i : Nat} {m : Always σ} {v : Violation}
    (h : (m.check s now i).2 = some v) : v.source = .always i := by
  unfold check at h
  split at h
  · cases h
  · exact Option.some.inj h ▸ rfl

/-! ### The set -/

namespace MonitorSet
variable {s : σ} {now : ℚ} {v : Violation} {ms ms' : MonitorSet σ} {since : Nat}
  {P P' : Eventually σ → Prop} {Q Q' : LeadsTo σ → Prop}

/-- A property of every liveness monitor. -/
structure All (P : Eventually σ → Prop) (Q : LeadsTo σ → Prop) (ms : MonitorSet σ) : Prop where
  eventually : ∀ e ∈ ms.eventually, P e
  leadsTo : ∀ m ∈ ms.leadsTo, Q m

theorem All.mono (h : ms.All P Q) (hP : ∀ e, P e → P' e) (hQ : ∀ m, Q m → Q' m) : ms.All P' Q' :=
  ⟨fun e he => hP e (h.eventually e he), fun m hm => hQ m (h.leadsTo m hm)⟩

theorem All.registers (h : ms.All P Q) (hr : Registers now since ms ms')
    (hP : ∀ e, e.Fresh now since → P e) (hQ : ∀ m, m.Fresh since → Q m) : ms'.All P Q := by
  obtain ⟨⟨es, hes, hfresh⟩, ⟨new, hnew, hfresh'⟩⟩ := hr
  refine ⟨fun e he => ?_, fun m hm => ?_⟩
  · rw [hes] at he
    rcases List.mem_append.mp he with he | he
    · exact h.eventually e he
    · exact hP e (hfresh e he)
  · rw [hnew] at hm
    rcases List.mem_append.mp hm with hm | hm
    · exact h.leadsTo m hm
    · exact hQ m (hfresh' m hm)

theorem All.afterStep (h : ms.All P Q) (hv : (ms.afterStep s now).2 = none)
    (hP : ∀ e, P e → P' (e.check s now)) (hQ : ∀ m, Q m → Q' (m.check s now)) :
    (ms.afterStep s now).1.All P' Q' := by
  unfold MonitorSet.afterStep at hv ⊢
  split at hv
  next => cases hv
  next =>
    refine ⟨fun e he => ?_, fun m hm => ?_⟩
    · obtain ⟨e, hin, rfl⟩ := List.mem_map.mp he
      exact hP e (h.eventually e hin)
    · obtain ⟨m, hin, rfl⟩ := List.mem_map.mp hm
      exact hQ m (h.leadsTo m hin)

theorem afterStep_source (h : (ms.afterStep s now).2 = some v) : ∃ i, v.source = .always i := by
  unfold MonitorSet.afterStep at h
  split at h
  next v' hv =>
    obtain rfl := Option.some.inj h
    obtain ⟨j, m, _, hm, _⟩ := sweep_some hv
    exact ⟨_, Always.check_source hm⟩
  next => cases h

variable {f : Nat → Eventually σ → Eventually σ × Option Violation}
  {g : Nat → LeadsTo σ → LeadsTo σ × Option Violation}

theorem All.demand (h : ms.All P Q) (hf : ∀ i e, P e → P (f i e).1) (hg : ∀ i m, Q m → Q (g i m).1) :
    (ms.demand f g).1.All P Q := by
  have hes := sweep_keeps hf 0 h.eventually
  unfold MonitorSet.demand
  split
  next es v hv => exact ⟨by rwa [hv] at hes, h.leadsTo⟩
  next es hv => exact ⟨by rwa [hv] at hes, sweep_keeps hg 0 h.leadsTo⟩

/-- A demand that fails, fails for one monitor. -/
theorem demand_some (h : (ms.demand f g).2 = some v) :
    (∃ i e, ms.eventually[i]? = some e ∧ (f i e).2 = some v ∧
      (ms.demand f g).1.eventually[i]? = some (f i e).1) ∨
    ∃ i m, ms.leadsTo[i]? = some m ∧ (g i m).2 = some v ∧
      (ms.demand f g).1.leadsTo[i]? = some (g i m).1 := by
  unfold MonitorSet.demand at h ⊢
  split at h
  next es v' hv =>
    obtain rfl := Option.some.inj h
    obtain ⟨j, e, he, hfe, hget⟩ := sweep_some (f := f) (i := 0) (by rw [hv])
    rw [Nat.zero_add] at hfe hget
    rw [hv] at hget
    exact .inl ⟨j, e, he, hfe, hget⟩
  next es hv =>
    obtain ⟨j, m, hm, hgm, hget⟩ := sweep_some h
    rw [Nat.zero_add] at hgm hget
    exact .inr ⟨j, m, hm, hgm, hget⟩

/-- One that does not fail has settled every monitor. -/
theorem demand_none (h : (ms.demand f g).2 = none) : (ms.demand f g).1.All
    (fun e => ∃ i, ∃ e₀ ∈ ms.eventually, (f i e₀).2 = none ∧ e = (f i e₀).1)
    (fun m => ∃ i, ∃ m₀ ∈ ms.leadsTo, (g i m₀).2 = none ∧ m = (g i m₀).1) := by
  unfold MonitorSet.demand at h ⊢
  split at h
  next => cases h
  next es hv =>
    refine ⟨fun e he => ?_, fun m hm => sweep_none h m hm⟩
    refine sweep_none (f := f) (i := 0) (by rw [hv]) e ?_
    rw [hv]
    exact he

end MonitorSet

/-! ### The loop's verdict -/

namespace SimLoop
variable {l : SimLoop R σ J κ} (verdict : MonitorSet σ × Option Violation)

@[simp] theorem conclude_monitors : (l.conclude verdict).1.monitors = verdict.1 := by
  obtain ⟨ms, v⟩ := verdict
  cases v <;> rfl

@[simp] theorem conclude_user : (l.conclude verdict).1.user = l.user := by
  obtain ⟨ms, v⟩ := verdict
  cases v <;> rfl

@[simp] theorem conclude_now : (l.conclude verdict).1.now = l.now := by
  obtain ⟨ms, v⟩ := verdict
  cases v <;> rfl

@[simp] theorem conclude_boundaries : (l.conclude verdict).1.boundaries = l.boundaries := by
  obtain ⟨ms, v⟩ := verdict
  cases v <;> rfl

@[simp] theorem conclude_raised : (l.conclude verdict).2 = verdict.2.map .violation := by
  obtain ⟨ms, v⟩ := verdict
  cases v <;> rfl

end SimLoop

end Simloom
