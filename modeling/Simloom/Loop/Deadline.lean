import Simloom.Loop.Verdict

/-! The clock does not pass a deadline.

As long as the monitors are on, no deadline that is armed is before the clock. -/
namespace Simloom
open Theory
variable {R : RandomSource} {σ J κ : Type}

def Eventually.Due (now : ℚ) (e : Eventually σ) : Prop := e.satisfied = false → now ≤ e.deadline

def LeadsTo.Due (now : ℚ) (m : LeadsTo σ) : Prop :=
  0 < m.within ∧ ∀ d ∈ m.armedDeadline, now ≤ d

theorem Eventually.Due.demand {s : σ} {now t : ℚ} {detail : String} {i : Nat} {e : Eventually σ}
    (h : e.Due now) : (e.demand s now t detail i).1.Due now := by
  unfold Eventually.demand
  split
  · exact nofun
  · exact h

theorem Eventually.Due.check {s : σ} {now : ℚ} {e : Eventually σ} (h : e.Due now) :
    (e.check s now).Due now := by
  unfold Eventually.check
  split
  · exact nofun
  · exact h

theorem Eventually.Due.fireDue {s : σ} {now : ℚ} {i : Nat} {e : Eventually σ} (h : e.Due now) :
    (e.fireDue s now i).1.Due now := by
  unfold Eventually.fireDue
  split
  · exact h.demand
  · exact h

theorem Eventually.Due.finalize {s : σ} {now : ℚ} {i : Nat} {e : Eventually σ} (h : e.Due now) :
    (e.finalize s now i).1.Due now := by
  unfold Eventually.finalize
  split
  · exact h.demand
  · exact h

theorem LeadsTo.Due.disarm {now : ℚ} {m : LeadsTo σ} (h : m.Due now) :
    LeadsTo.Due now {m with armedDeadline := none} := ⟨h.1, nofun⟩

theorem LeadsTo.Due.check {s : σ} {now : ℚ} {m : LeadsTo σ} (h : m.Due now) :
    (m.check s now).Due now := by
  unfold LeadsTo.check
  split
  · split
    · exact h.disarm
    · exact h
  · split
    · refine ⟨h.1, fun d hd => ?_⟩
      obtain rfl := Option.some.inj hd
      exact le_add_of_nonneg_right h.1.le
    · exact h

theorem LeadsTo.Due.fireDue {s : σ} {now : ℚ} {i : Nat} {m : LeadsTo σ} (h : m.Due now) :
    (m.fireDue s now i).1.Due now := by
  unfold LeadsTo.fireDue
  split
  · split
    · split
      · exact h.disarm
      · exact h
    · exact h
  · exact h

theorem LeadsTo.Due.finalize {s : σ} {now : ℚ} {i : Nat} {m : LeadsTo σ} (h : m.Due now) :
    (m.finalize s now i).1.Due now := by
  unfold LeadsTo.finalize
  split <;> exact h

/-- Nothing that is owed is overdue. -/
abbrev MonitorSet.Due (now : ℚ) (ms : MonitorSet σ) : Prop := ms.All (Eventually.Due now) (LeadsTo.Due now)

namespace MonitorSet
variable {s : σ} {now now' : ℚ} {ms ms' : MonitorSet σ} {since : Nat}

theorem mem_deadlines {d : ℚ} : d ∈ ms.deadlines ↔
    (∃ e ∈ ms.eventually, e.satisfied = false ∧ e.deadline = d) ∨
      ∃ m ∈ ms.leadsTo, m.armedDeadline = some d := by
  simp only [deadlines, List.mem_append, List.mem_filterMap]
  refine or_congr (exists_congr fun e => and_congr_right fun _ => ?_) Iff.rfl
  cases e.satisfied <;> simp

theorem due_iff : ms.Due now ↔ (∀ d ∈ ms.deadlines, now ≤ d) ∧ ∀ m ∈ ms.leadsTo, 0 < m.within := by
  constructor
  · refine fun h => ⟨fun d hd => ?_, fun m hm => (h.leadsTo m hm).1⟩
    rcases mem_deadlines.mp hd with ⟨e, he, hunmet, rfl⟩ | ⟨m, hm, harmed⟩
    · exact h.eventually e he hunmet
    · exact (h.leadsTo m hm).2 d harmed
  · rintro ⟨h, hpos⟩
    exact ⟨fun e he hunmet => h _ (mem_deadlines.mpr (.inl ⟨e, he, hunmet, rfl⟩)),
      fun m hm => ⟨hpos m hm, fun d hd => h d (mem_deadlines.mpr (.inr ⟨m, hm, hd⟩))⟩⟩

/-- Up to the next deadline time may pass. -/
theorem Due.pass (h : ms.Due now) (hle : ∀ d ∈ ms.nextDeadline, now' ≤ max now d) : ms.Due now' := by
  rw [due_iff] at h ⊢
  refine ⟨fun d hd => ?_, h.2⟩
  obtain ⟨next, hnext⟩ : ∃ next, ms.nextDeadline = some next :=
    Option.ne_none_iff_exists'.mp fun hnone => by
      rw [nextDeadline, List.min?_eq_none_iff] at hnone
      rw [hnone] at hd
      cases hd
  have hmin : next ≤ d := (List.min?_eq_some_iff.mp hnext).2 d hd
  exact (hle next hnext).trans (max_le (h.1 d hd) hmin)

theorem Due.registers (h : ms.Due now) (hr : Registers now since ms ms') : ms'.Due now := by
  refine All.registers h hr (fun e he _ => ?_) fun m hm => ⟨hm.2.1, fun d hd => ?_⟩
  · obtain ⟨_, hwithin, hdeadline, hmade, _⟩ := he
    rw [hdeadline, hmade]
    exact le_add_of_nonneg_right hwithin.le
  · rw [hm.1] at hd
    cases hd

theorem Due.afterStep (h : ms.Due now) : (ms.afterStep s now).1.Due now := by
  cases hv : (ms.afterStep s now).2 with
  | none => exact All.afterStep h hv (fun _ he => he.check) fun _ hm => hm.check
  | some v =>
    unfold MonitorSet.afterStep at hv ⊢
    split at hv
    · exact h
    · cases hv

theorem Due.fireDue (h : ms.Due now) : (ms.fireDue s now).1.Due now :=
  All.demand h (fun _ _ he => he.fireDue) fun _ _ hm => hm.fireDue

theorem Due.finalize (h : ms.Due now) : (ms.finalize s now).1.Due now :=
  All.demand h (fun _ _ he => he.finalize) fun _ _ hm => hm.finalize

end MonitorSet

/-! ### Calls of the loop -/

namespace SimLoop
variable {c : LoopConfig R σ J κ} {l m : SimLoop R σ J κ}

/-- The monitors are on, and nothing that is owed is overdue. -/
structure Punctual (l : SimLoop R σ J κ) : Prop where
  enabled : l.monitoringEnabled = true
  due : l.monitors.Due l.now

theorem Punctual.performs (h : l.Punctual) (hp : Performs l m) : m.Punctual where
  enabled := hp.enabled.trans h.enabled
  due := by
    rw [hp.now]
    exact h.due.registers hp.registers

theorem nextDeadline_of_mem (h : l.Punctual) {d : ℚ} (hd : d ∈ l.monitors.nextDeadline) :
    d ∈ l.nextDeadline := by
  have hnonempty : l.monitors.isEmpty = false := by
    refine Bool.eq_false_iff.mpr fun hempty => ?_
    simp only [MonitorSet.isEmpty, Bool.and_eq_true, List.isEmpty_iff] at hempty
    simp [MonitorSet.nextDeadline, MonitorSet.deadlines, hempty.1.2, hempty.2] at hd
  unfold nextDeadline
  rw [hnonempty, h.enabled]
  exact hd

theorem Punctual.passes (h : l.Punctual) (hp : Passes l m) : m.Punctual where
  enabled := hp.enabled.trans h.enabled
  due := by
    rw [hp.monitors]
    exact h.due.pass fun d hd => hp.deadline d (nextDeadline_of_mem h hd)

theorem Punctual.conclude (h : l.Punctual) {verdict : MonitorSet σ × Option Violation}
    (hv : verdict.1.Due l.now) : (l.conclude verdict).1.Punctual := by
  obtain ⟨ms, v⟩ := verdict
  cases v <;> exact ⟨h.enabled, hv⟩

theorem Punctual.bound (h : l.Punctual) : l.bound.Punctual := ⟨h.enabled, h.due⟩

theorem Punctual.finishStep (h : l.Punctual) (e : Option PyException) :
    (finishStep (l, e)).1.Punctual := by
  cases e with
  | some e => exact h
  | none =>
    dsimp only [SimLoop.finishStep]
    split
    · exact h.bound.conclude h.due.afterStep
    · exact h.bound

theorem Punctual.runOnce (h : l.Punctual) : (l.runOnce c).1.Punctual := by
  have hw := watches c l
  generalize l.runOnce c = turn at hw
  cases hw with
  | idle hpasses => exact h.passes hpasses
  | due hpasses => exact (h.passes hpasses).conclude (h.passes hpasses).due.fireDue
  | ran hpasses hperforms => exact ((h.passes hpasses).performs hperforms).finishStep _

theorem Punctual.drainReady (limit : Nat) {l : SimLoop R σ J κ} (h : l.Punctual) :
    (l.drainReady c limit).1.Punctual := by
  induction limit generalizing l with
  | zero => exact h
  | succ limit ih =>
    have hcompact : Performs l {l with agenda := l.agenda.compact} :=
      .of_eq (Agenda.compact_now _) rfl rfl rfl
    unfold SimLoop.drainReady
    dsimp only
    split
    next => exact h.performs hcompact
    next first rest hready =>
      split
      next => exact h.performs (hcompact.trans (.of_eq rfl rfl rfl rfl))
      next index scheduler tape _ =>
        let picked : SimLoop R σ J κ :=
          {l with agenda := l.agenda.compact, scheduler := scheduler, tape := tape}
        have hpicked : Performs l picked := hcompact.trans (.of_eq rfl rfl rfl rfl)
        have hstep := h.performs (hpicked.trans (drainStep_performs (c := c) index
          (rest.length + 1) ((first :: rest).get index)))
        split
        next l' e hraised => rwa [hraised] at hstep
        next l' hl' =>
          rw [hl'] at hstep
          exact ih hstep.bound

/-- **No armed deadline is before the clock**, whatever is done with a loop whose monitors
are on. -/
theorem Punctual.drive (h : l.Punctual) {e : Drive R σ J} (he : e ≠ .unmonitor) :
    (l.drive c e).1.Punctual := by
  cases e with
  | once => exact h.runOnce
  | drain limit => exact h.drainReady limit
  | outside code => exact h.performs (perform_performs code)
  | finalize =>
    dsimp only [SimLoop.drive]
    unfold finalizeMonitors
    split
    · exact h
    · exact h.conclude h.due.finalize
  | leave => exact ⟨h.enabled, h.due⟩
  | unmonitor => exact absurd rfl he
  | revive => exact ⟨h.enabled, h.due⟩

end SimLoop

end Simloom
