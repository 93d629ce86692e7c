import Simloom.Loop.Drive

/-! What a call does to the monitors.

Code registers monitors, and leaves those that are there alone (`Performs`). A step lets time
pass, up to the next deadline at most, and then either ends, or enforces the deadlines that
have come, or runs code and checks the monitors (`watches`). -/
namespace Simloom
variable {R : RandomSource} {σ J κ : Type}

/-! ### Registration -/

def Eventually.Fresh (now : ℚ) (since : Nat) (e : Eventually σ) : Prop :=
  e.satisfied = false ∧ 0 < e.within ∧ e.deadline = e.made + e.within ∧ e.made = now ∧ e.since = since

def LeadsTo.Fresh (since : Nat) (m : LeadsTo σ) : Prop :=
  m.armedDeadline = none ∧ 0 < m.within ∧ m.since = since

/-- Monitors are registered, at `now` and after `since` steps. -/
structure MonitorSet.Registers (now : ℚ) (since : Nat) (ms ms' : MonitorSet σ) : Prop where
  eventually : ∃ new, ms'.eventually = ms.eventually ++ new ∧ ∀ e ∈ new, e.Fresh now since
  leadsTo : ∃ new, ms'.leadsTo = ms.leadsTo ++ new ∧ ∀ m ∈ new, m.Fresh since

namespace MonitorSet
variable {now : ℚ} {since : Nat} {ms ms' : MonitorSet σ}

theorem Registers.of_eq (he : ms'.eventually = ms.eventually) (hl : ms'.leadsTo = ms.leadsTo) :
    Registers now since ms ms' :=
  ⟨⟨[], by rw [he, List.append_nil], nofun⟩, ⟨[], by rw [hl, List.append_nil], nofun⟩⟩

theorem Registers.refl (ms : MonitorSet σ) : Registers now since ms ms := .of_eq rfl rfl

theorem append_all {α : Type} {P : α → Prop} {a b c : List α}
    (h : ∃ new, b = a ++ new ∧ ∀ x ∈ new, P x) (h' : ∃ new, c = b ++ new ∧ ∀ x ∈ new, P x) :
    ∃ new, c = a ++ new ∧ ∀ x ∈ new, P x := by
  obtain ⟨new, rfl, hnew⟩ := h
  obtain ⟨new', rfl, hnew'⟩ := h'
  refine ⟨new ++ new', List.append_assoc _ _ _, fun x hx => ?_⟩
  rcases List.mem_append.mp hx with hx | hx
  · exact hnew x hx
  · exact hnew' x hx

theorem Registers.trans {ms'' : MonitorSet σ} (h : Registers now since ms ms')
    (h' : Registers now since ms' ms'') : Registers now since ms ms'' :=
  ⟨append_all h.eventually h'.eventually, append_all h.leadsTo h'.leadsTo⟩

theorem addAlways_registers (label : String) (predicate : Predicate σ) :
    Registers now since ms (ms.addAlways label predicate) := by
  unfold addAlways
  split
  · exact .refl ms
  · exact .of_eq rfl rfl

theorem addEventually_registers (label : String) (predicate : Predicate σ) (within : ℚ) :
    Registers now since ms (ms.addEventually label predicate within now since) := by
  unfold addEventually
  split
  · exact .refl ms
  next h =>
    refine ⟨⟨_, rfl, fun e he => ?_⟩, ⟨[], (List.append_nil _).symm, nofun⟩⟩
    rw [List.mem_singleton.mp he]
    exact ⟨rfl, not_le.mp fun hle => h (.inl hle), rfl, rfl, rfl⟩

theorem addLeadsTo_registers (label : String) (trigger response : Predicate σ) (within : ℚ) :
    Registers now since ms (ms.addLeadsTo label trigger response within since) := by
  unfold addLeadsTo
  split
  · exact .refl ms
  next h =>
    refine ⟨⟨[], (List.append_nil _).symm, nofun⟩, ⟨_, rfl, fun m hm => ?_⟩⟩
    rw [List.mem_singleton.mp hm]
    exact ⟨rfl, not_le.mp fun hle => h (.inr hle), rfl⟩

end MonitorSet

namespace SimLoop
variable {c : LoopConfig R σ J κ} {l m n : SimLoop R σ J κ}

/-! ### Running code -/

/-- Code ran. -/
structure Performs (l m : SimLoop R σ J κ) : Prop where
  now : m.now = l.now
  boundaries : m.boundaries = l.boundaries
  enabled : m.monitoringEnabled = l.monitoringEnabled
  registers : MonitorSet.Registers l.now l.boundaries.length l.monitors m.monitors

theorem Performs.of_eq (hnow : m.now = l.now) (hb : m.boundaries = l.boundaries)
    (he : m.monitoringEnabled = l.monitoringEnabled) (hm : m.monitors = l.monitors) :
    Performs l m := ⟨hnow, hb, he, .of_eq (by rw [hm]) (by rw [hm])⟩

theorem Performs.trans (h : Performs l m) (h' : Performs m n) : Performs l n where
  now := h'.now.trans h.now
  boundaries := h'.boundaries.trans h.boundaries
  enabled := h'.enabled.trans h.enabled
  registers := by
    have hr := h'.registers
    rw [h.now, h.boundaries] at hr
    exact h.registers.trans hr

theorem deed_performs (d : Deed σ J) : Performs l (l.deed c d) := by
  cases d with
  | callSoon call =>
    dsimp only [deed, noteCause]
    split <;> exact .of_eq rfl rfl rfl rfl
  | callAt time call =>
    dsimp only [deed, noteCause]
    split <;> exact .of_eq rfl rfl rfl rfl
  | always label predicate => exact ⟨rfl, rfl, rfl, MonitorSet.addAlways_registers label predicate⟩
  | eventually label predicate within =>
    exact ⟨rfl, rfl, rfl, MonitorSet.addEventually_registers label predicate within⟩
  | leadsTo label trigger response within =>
    exact ⟨rfl, rfl, rfl, MonitorSet.addLeadsTo_registers label trigger response within⟩
  | _ => exact .of_eq rfl rfl rfl rfl

theorem perform_performs (code : Code R σ J) : Performs l (l.perform c code).1 := by
  have hdeeds (ds : List (Deed σ J)) (l : SimLoop R σ J κ) :
      Performs l (ds.foldl (fun l d => l.deed c d) l) := by
    induction ds generalizing l with
    | nil => exact .of_eq rfl rfl rfl rfl
    | cons d rest ih => exact (deed_performs d).trans (ih _)
  have hran : Performs l {l with
      user := (code l.user l.now l.agenda.made l.tape).state
      tape := (code l.user l.now l.agenda.made l.tape).tape} := .of_eq rfl rfl rfl rfl
  exact hran.trans (hdeeds _ _)

theorem runHandle_performs (h : Handle J) : Performs l (l.runHandle c h).1 :=
  .trans (m := {l with agenda := l.agenda.run}) (.of_eq rfl rfl rfl rfl) (perform_performs _)

theorem drainStep_performs (index count : Nat) (h : Handle J) :
    Performs l (l.drainStep c index count h).1 :=
  .trans (m := l.takeStep c index count h) (.of_eq rfl rfl rfl rfl) (runHandle_performs h)

/-! ### A step -/

/-- Time passes, up to the next deadline at most. -/
structure Passes (l m : SimLoop R σ J κ) : Prop where
  user : m.user = l.user
  monitors : m.monitors = l.monitors
  boundaries : m.boundaries = l.boundaries
  enabled : m.monitoringEnabled = l.monitoringEnabled
  later : l.now ≤ m.now
  deadline : ∀ d ∈ l.nextDeadline, m.now ≤ max l.now d

/-- What a step does. It is idle, and raises nothing, only where nothing is ready that is not
dead; there it may also find deadlines that have come. -/
inductive Watches (l : SimLoop R σ J κ) : Turn R σ J κ → Prop where
  | idle {m : SimLoop R σ J κ} {e : Option LoopError} (hpasses : Passes l m)
    (hidle : e = none → l.tidy.agenda.ready = [])
    (hquiet : ∀ v, e ≠ some (.violation v)) : Watches l (m, e)
  | due {m : SimLoop R σ J κ} {d : ℚ} (hpasses : Passes l m) (hready : l.tidy.agenda.ready = [])
    (hdeadline : l.nextDeadline = some d) (hnow : m.now = max l.now d) : Watches l m.checkDue
  | ran {m n : SimLoop R σ J κ} {e : Option PyException} (hpasses : Passes l m)
    (hperforms : Performs m n) : Watches l (finishStep (n, e))

theorem tidy_passes : Passes l l.tidy :=
  ⟨rfl, rfl, rfl, rfl, (tidy_now l).ge, fun _ _ => (tidy_now l).le.trans (le_max_left _ _)⟩

theorem wake_passes (h : Passes l m) : Passes l m.wake :=
  ⟨h.user, h.monitors, h.boundaries, h.enabled, h.later, h.deadline⟩

theorem arrive_passes {time : ℚ} (hle : l.now ≤ time)
    (hd : ∀ d ∈ l.nextDeadline, time ≤ max l.now d) : Passes l (l.tidy.arrive time) :=
  ⟨rfl, rfl, rfl, rfl, hle, hd⟩

theorem jump_passes {target : ℚ} (hd : ∀ d ∈ l.nextDeadline, target ≤ d) :
    Passes l (l.tidy.jump target) := by
  unfold jump
  split
  next hlt =>
    rw [tidy_now] at hlt
    exact ⟨rfl, rfl, rfl, rfl, hlt.le, fun d h => (hd d h).trans (le_max_right _ _)⟩
  next => exact tidy_passes

/-- Running the picked handle. -/
theorem execute_watches {index count : Nat} {h : Handle J} {l' : SimLoop R σ J κ}
    (hpasses : Passes l' l) : Watches l' (l.execute c index count h) := by
  let taken := ((l.takeStep c index count h).numberStep).countInstant
  have htaken : Passes l' taken :=
    ⟨hpasses.user, hpasses.monitors, hpasses.boundaries, hpasses.enabled, hpasses.later,
      hpasses.deadline⟩
  unfold execute
  dsimp only
  split
  · exact .idle ⟨htaken.user, htaken.monitors, htaken.boundaries, htaken.enabled, htaken.later,
      htaken.deadline⟩ nofun nofun
  · have hcollect : Performs taken (taken.collectDue c) := by
      unfold collectDue
      split
      · exact (perform_performs c.code.collect).trans (.of_eq rfl rfl rfl rfl)
      · exact .of_eq rfl rfl rfl rfl
    exact .ran htaken (hcollect.trans (runHandle_performs h))

theorem choose_watches {l' : SimLoop R σ J κ} (hpasses : Passes l' l)
    (hidle : l.agenda.ready = [] → l'.tidy.agenda.ready = []) : Watches l' (l.choose c) := by
  unfold choose
  split
  next hready => exact .idle hpasses (fun _ => hidle hready) nofun
  next =>
    split
    · exact .idle ⟨hpasses.user, hpasses.monitors, hpasses.boundaries, hpasses.enabled,
        hpasses.later, hpasses.deadline⟩ nofun nofun
    · exact execute_watches ⟨hpasses.user, hpasses.monitors, hpasses.boundaries,
        hpasses.enabled, hpasses.later, hpasses.deadline⟩

/-- **What a step does to the monitors.** -/
theorem watches (c : LoopConfig R σ J κ) (l : SimLoop R σ J κ) : Watches l (l.runOnce c) := by
  have hs := settles c l
  unfold runOnce
  generalize l.settle c = s at hs
  cases hs with
  | ready hready =>
    refine choose_watches (wake_passes tidy_passes) fun hempty => ?_
    exact (List.append_eq_nil_iff.mp hempty).1
  | deadlock hready hscheduled =>
    exact .idle ⟨rfl, rfl, rfl, rfl, (tidy_now l).ge,
      fun _ _ => (tidy_now l).le.trans (le_max_left _ _)⟩ nofun nofun
  | @due top rest deadline hready hscheduled hdeadline hdue =>
    refine .due (arrive_passes (le_max_left _ _) fun d hd => ?_) hready hdeadline rfl
    obtain rfl : deadline = d := Option.some.inj (hdeadline.symm.trans hd)
    exact le_rfl
  | jump hready hscheduled hdeadline =>
    exact choose_watches (wake_passes (jump_passes fun d hd => (hdeadline d hd).2)) fun _ => hready

end SimLoop

end Simloom
