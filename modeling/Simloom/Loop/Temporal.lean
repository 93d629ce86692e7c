import Simloom.Loop.Liveness
import Simloom.Loop.Runs

/-! The liveness verdicts of a run are those of the temporal properties.

A run starts with the step of the main task queued, so a step is made before the monitors
decide anything, and what they look at is the state of the last boundary. -/
namespace Simloom.SimLoop
open Theory
variable {R : RandomSource} {σ J κ : Type} {c : LoopConfig R σ J κ} {l m n : SimLoop R σ J κ}

/-- The monitors stand for their properties. -/
structure Tracked (l : SimLoop R σ J κ) : Prop where
  punctual : l.Punctual
  ordered : l.boundaries.Pairwise fun b b' => b.1 ≤ b'.1
  past : ∀ b ∈ l.boundaries, b.1 ≤ l.now
  tracks : l.monitors.All (Eventually.Tracks l.boundaries) (LeadsTo.Tracks l.boundaries)

/-- Besides, a boundary has come since every registration, and nothing ran since the last. -/
structure Observed (l : SimLoop R σ J κ) : Prop where
  tracked : l.Tracked
  current : ∀ b ∈ l.boundaries.getLast?, b.2 = l.user
  watched : l.monitors.All (Eventually.Watched l.boundaries) (LeadsTo.Watched l.boundaries)

theorem tracked_start (epoch : ℚ) (user : σ) (tape : Tape R) (scheduler : κ) :
    (start epoch user tape scheduler : SimLoop R σ J κ).Tracked where
  punctual := ⟨rfl, nofun, nofun⟩
  ordered := .nil
  past := nofun
  tracks := ⟨nofun, nofun⟩

theorem Tracked.performs (h : l.Tracked) (hp : Performs l m) : m.Tracked where
  punctual := h.punctual.performs hp
  ordered := hp.boundaries ▸ h.ordered
  past := by
    rw [hp.boundaries, hp.now]
    exact h.past
  tracks := by
    rw [hp.boundaries]
    exact h.tracks.registers hp.registers (fun _ he => he.tracks) fun _ hm => hm.tracks

theorem Tracked.passes (h : l.Tracked) (hp : Passes l m) : m.Tracked where
  punctual := h.punctual.passes hp
  ordered := hp.boundaries ▸ h.ordered
  past := by
    rw [hp.boundaries]
    exact fun b hb => (h.past b hb).trans hp.later
  tracks := by
    rw [hp.boundaries, hp.monitors]
    exact h.tracks

theorem Observed.passes (h : l.Observed) (hp : Passes l m) : m.Observed where
  tracked := h.tracked.passes hp
  current := by
    rw [hp.boundaries, hp.user]
    exact h.current
  watched := by
    rw [hp.boundaries, hp.monitors]
    exact h.watched

/-! ### A boundary -/

/-- With its boundary noted and the monitors checked, a state is observed. -/
theorem Tracked.bound (h : l.Tracked) {ms : MonitorSet σ} (hdue : ms.Due l.now)
    (hwatched : ms.All (Eventually.Watched l.bound.boundaries) (LeadsTo.Watched l.bound.boundaries)) :
    Observed {l.bound with monitors := ms} where
  tracked := by
    refine ⟨⟨h.punctual.enabled, hdue⟩, ?_, fun b hb => ?_,
      hwatched.mono (fun _ he => he.tracks) fun _ hm => hm.tracks⟩
    · refine List.pairwise_append.mpr ⟨h.ordered, List.pairwise_singleton _ _, fun b hb b' hb' => ?_⟩
      rw [List.mem_singleton.mp hb']
      exact h.past b hb
    · rcases List.mem_append.mp hb with hb | hb
      · exact h.past b hb
      · rw [List.mem_singleton.mp hb]
        exact le_rfl
  current := fun b hb => by
    have hlast : l.bound.boundaries.getLast? = some (l.now, l.user) := List.getLast?_concat
    exact Option.some.inj (hlast.symm.trans hb) ▸ rfl
  watched := hwatched

/-- A step that ends without a violation leaves an observed state. -/
theorem Tracked.finishStep (h : l.Tracked) {n : SimLoop R σ J κ}
    (hturn : finishStep (l, none) = (n, none)) : n.Observed := by
  dsimp only [SimLoop.finishStep] at hturn
  split at hturn
  next =>
    unfold checkStep at hturn
    cases hv : (l.monitors.afterStep l.user l.now).2 with
    | some v =>
      rw [show l.bound.monitors.afterStep l.bound.user l.bound.now =
        ((l.monitors.afterStep l.user l.now).1, some v) from Prod.ext rfl hv] at hturn
      cases hturn
    | none =>
      rw [show l.bound.monitors.afterStep l.bound.user l.bound.now =
        ((l.monitors.afterStep l.user l.now).1, none) from Prod.ext rfl hv] at hturn
      obtain rfl := (Prod.mk.inj hturn).1
      refine h.bound h.punctual.due.afterStep ?_
      have hboth : l.monitors.All (fun e => e.Tracks l.boundaries ∧ e.Due l.now)
          (fun m => m.Tracks l.boundaries ∧ m.Due l.now) :=
        ⟨fun e he => ⟨h.tracks.eventually e he, h.punctual.due.eventually e he⟩,
          fun m hm => ⟨h.tracks.leadsTo m hm, h.punctual.due.leadsTo m hm⟩⟩
      exact hboth.afterStep hv (fun e he => he.1.watch he.2) fun m hm => hm.1.watch hm.2 h.ordered
  next hskip =>
    obtain rfl := (Prod.mk.inj hturn).1
    have hempty : l.monitors.isEmpty = true := by
      simpa [SimLoop.bound, h.punctual.enabled] using hskip
    obtain ⟨⟨_, hes⟩, hms⟩ : (l.monitors.always = [] ∧ l.monitors.eventually = []) ∧
        l.monitors.leadsTo = [] := by
      simpa [MonitorSet.isEmpty] using hempty
    refine h.bound h.punctual.due ⟨fun e he => ?_, fun m hm => ?_⟩
    · rw [hes] at he
      cases he
    · rw [hms] at hm
      cases hm

/-! ### Deadlines -/

/-- What a deadline's or the end's violation reports: a monitor that is owed something. -/
structure Reports (l : SimLoop R σ J κ) (v : Violation) : Prop where
  time : v.t = l.now
  monitor : (∃ (i : Nat) (e : Eventually σ),
      l.monitors.eventually[i]? = some e ∧ e.Reported l.user l.now i v) ∨
    ∃ (i : Nat) (m : LeadsTo σ), l.monitors.leadsTo[i]? = some m ∧ m.Reported l.user l.now i v

/-- The monitor that a violation reports has come to its deadline. -/
def Struck (l : SimLoop R σ J κ) (v : Violation) : Prop :=
  (∀ (i : Nat) (e : Eventually σ), l.monitors.eventually[i]? = some e →
      v.source = .eventually i → e.deadline = l.now) ∧
    ∀ (i : Nat) (m : LeadsTo σ), l.monitors.leadsTo[i]? = some m →
      v.source = .leadsTo i → m.armedDeadline = some l.now

/-- Monitors whose deadlines have come are settled or reported, by what they stand for. -/
theorem Observed.conclude (h : l.Observed) {verdict : MonitorSet σ × Option Violation}
    (hdue : verdict.1.Due l.now)
    (hv : verdict.1.All (Eventually.Watched l.boundaries) (LeadsTo.Watched l.boundaries)) :
    (l.conclude verdict).1.Observed := by
  obtain ⟨ms, v⟩ := verdict
  have htracks := hv.mono (fun _ he => he.tracks) fun _ hm => hm.tracks
  cases v <;> exact ⟨⟨⟨h.tracked.punctual.enabled, hdue⟩, h.tracked.ordered, h.tracked.past, htracks⟩,
    h.current, hv⟩

theorem Observed.checkDue (h : l.Observed) : l.checkDue.1.Observed :=
  h.conclude h.tracked.punctual.due.fireDue (h.watched.demand (fun _ _ he => he.fireDue h.current)
    fun _ _ hm => hm.fireDue h.current)

theorem Observed.finalizeMonitors (h : l.Observed) : l.finalizeMonitors.1.Observed := by
  unfold SimLoop.finalizeMonitors
  split
  · exact h
  · exact h.conclude h.tracked.punctual.due.finalize
      (h.watched.demand (fun _ _ he => he.finalize h.current) fun _ _ hm => hm.finalize)

/-- What a deadline's violation says. -/
theorem Observed.checkDue_reports (h : l.Observed) {v : Violation}
    (hv : (l.monitors.fireDue l.user l.now).2 = some v) :
    l.checkDue.1.Reports v ∧ l.checkDue.1.Struck v := by
  have hdue := h.tracked.punctual.due
  have hstate : l.checkDue.1.user = l.user ∧ l.checkDue.1.now = l.now ∧
      l.checkDue.1.monitors = (l.monitors.fireDue l.user l.now).1 :=
    ⟨conclude_user _, conclude_now _, conclude_monitors _⟩
  obtain ⟨huser, hnow, hmonitors⟩ := hstate
  rcases MonitorSet.demand_some hv with ⟨i, e, he, hfe, hget⟩ | ⟨i, m, hm, hgm, hget⟩
  · obtain ⟨hreported, htime, hle, hsame⟩ := Eventually.fireDue_some hfe
    have hge : l.now ≤ e.deadline := hdue.eventually e (List.mem_of_getElem? he) hreported.unmet
    have heq : e.deadline = l.now := le_antisymm hle hge
    rw [hsame] at hget
    refine ⟨⟨htime.trans (heq.trans hnow.symm), .inl ⟨i, e, ?_, ?_⟩⟩, fun j e' he' hsource => ?_,
      fun j m hm hsource => ?_⟩
    · rw [hmonitors]
      exact hget
    · rw [huser, hnow]
      exact hreported
    · obtain rfl : i = j := MonitorRef.eventually.inj (hreported.source.symm.trans hsource)
      rw [hmonitors] at he'
      rw [hnow, ← heq, Option.some.inj (hget.symm.trans he')]
    · exact nomatch hreported.source.symm.trans hsource
  · obtain ⟨hreported, harmed, hle, hsame⟩ := LeadsTo.fireDue_some hgm
    have hge : l.now ≤ v.t := (hdue.leadsTo m (List.mem_of_getElem? hm)).2 v.t harmed
    have heq : v.t = l.now := le_antisymm hle hge
    rw [hsame] at hget
    refine ⟨⟨heq.trans hnow.symm, .inr ⟨i, m, ?_, ?_⟩⟩, fun j e he hsource => ?_,
      fun j m' hm' hsource => ?_⟩
    · rw [hmonitors]
      exact hget
    · rw [huser, hnow]
      exact hreported
    · exact nomatch hreported.source.symm.trans hsource
    · obtain rfl : i = j := MonitorRef.leadsTo.inj (hreported.source.symm.trans hsource)
      rw [hmonitors] at hm'
      rw [hnow, ← heq, ← Option.some.inj (hget.symm.trans hm')]
      exact harmed

/-- At the end without a violation everything is settled. -/
theorem Observed.settled (h : l.Observed) (hnone : l.finalizeMonitors.2 = none) :
    (∀ e ∈ l.finalizeMonitors.1.monitors.eventually, e.satisfied = true) ∧
      ∀ m ∈ l.finalizeMonitors.1.monitors.leadsTo, m.response.Pure → m.armedDeadline = none := by
  unfold SimLoop.finalizeMonitors at hnone ⊢
  split at hnone
  next hempty =>
    rw [if_pos hempty]
    obtain ⟨⟨_, hes⟩, hms⟩ : (l.monitors.always = [] ∧ l.monitors.eventually = []) ∧
        l.monitors.leadsTo = [] := by
      simpa [MonitorSet.isEmpty] using hempty
    refine ⟨fun e he => ?_, fun m hm => ?_⟩
    · rw [hes] at he
      cases he
    · rw [hms] at hm
      cases hm
  next hsome =>
    rw [if_neg hsome, conclude_monitors]
    rw [conclude_raised, Option.map_eq_none_iff] at hnone
    obtain ⟨hes, hms⟩ := MonitorSet.demand_none hnone
    refine ⟨fun e he => ?_, fun m hm hpure => ?_⟩
    · obtain ⟨i, e₀, _, hsettled, rfl⟩ := hes e he
      exact Eventually.finalize_none hsettled
    · obtain ⟨i, m₀, hin, hsettled, rfl⟩ := hms m hm
      obtain ⟨hsame, hresponds⟩ := LeadsTo.finalize_none hsettled
      rw [hsame] at hpure ⊢
      have hwatched := h.watched.leadsTo m₀ hin
      cases harmed : m₀.armedDeadline with
      | none => rfl
      | some d =>
        have hholds := hresponds (by rw [harmed]; rfl)
        rw [hwatched.tracks.fails hpure hwatched.begun h.current harmed] at hholds
        cases hholds

/-! ### Runs -/

/-- Ready to decide: observed, or about to make a step. -/
def Sound (l : SimLoop R σ J κ) : Prop :=
  l.Observed ∨ l.Tracked ∧ ∃ h ∈ l.agenda.ready, l.agenda.isDead h = false

theorem Sound.tracked (h : l.Sound) : l.Tracked := h.elim Observed.tracked And.left

theorem Sound.observed (h : l.Sound) (hready : l.tidy.agenda.ready = []) : l.Observed := by
  refine h.resolve_right fun ⟨_, x, hx, hlive⟩ => ?_
  rw [tidy_ready_nil.mp hready x hx] at hlive
  cases hlive

/-- **What one step decides.** -/
theorem Sound.runOnce (h : l.Sound) {e : Option LoopError} (hturn : l.runOnce c = (n, e)) :
    (e = none → n.Observed) ∧ ∀ v, e = some (.violation v) →
      (∃ i, v.source = .always i) ∨ n.Observed ∧ n.Reports v ∧ n.Struck v := by
  have hw := watches c l
  generalize l.runOnce c = turn at hw hturn
  cases hw with
  | idle hpasses hidle hquiet =>
    obtain ⟨rfl, rfl⟩ := Prod.mk.inj hturn
    exact ⟨fun he => (h.observed (hidle he)).passes hpasses, fun v hv => absurd hv (hquiet v)⟩
  | @due m d hpasses hready hdeadline hnow =>
    have hm : m.Observed := (h.observed hready).passes hpasses
    have hn : n.Observed := by
      have hdue := hm.checkDue
      rwa [hturn] at hdue
    refine ⟨fun _ => hn, fun v hv => .inr ?_⟩
    have hraised : m.checkDue.2 = some (.violation v) := by rw [hturn, ← hv]
    unfold SimLoop.checkDue at hraised
    rw [conclude_raised] at hraised
    obtain ⟨v', hv', hinj⟩ := Option.map_eq_some_iff.mp hraised
    obtain rfl := LoopError.violation.inj hinj
    have hreports := hm.checkDue_reports hv'
    rw [hturn] at hreports
    exact ⟨hn, hreports⟩
  | @ran m n' e' hpasses hperforms =>
    have htracked : n'.Tracked := (h.tracked.passes hpasses).performs hperforms
    cases e' with
    | some e' =>
      obtain ⟨rfl, rfl⟩ := Prod.mk.inj hturn
      exact ⟨nofun, nofun⟩
    | none =>
      refine ⟨fun he => htracked.finishStep (he ▸ hturn), fun v hv => .inl ?_⟩
      rw [hv] at hturn
      dsimp only [SimLoop.finishStep] at hturn
      split at hturn
      · have hraised := congrArg Prod.snd hturn
        unfold checkStep at hraised
        rw [conclude_raised] at hraised
        obtain ⟨v', hv', hinj⟩ := Option.map_eq_some_iff.mp hraised
        obtain rfl := LoopError.violation.inj hinj
        exact MonitorSet.afterStep_source hv'
      · cases hturn

theorem Ongoing.sound (h : l.Sound) (hm : Ongoing c l m) : m = l ∨ m.Observed := by
  induction hm with
  | here => exact .inl rfl
  | @step m n _ hround ih =>
    have hturn : m.runOnce c = (n, none) := ((round_goes c).mp hround).2
    have hsound : m.Sound := ih.elim (fun heq => heq ▸ h) .inl
    exact .inr ((hsound.runOnce hturn).1 rfl)

variable {returned : Prop} {e : Option LoopError}

end Simloom.SimLoop
