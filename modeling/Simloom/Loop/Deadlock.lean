import Simloom.Loop.Runs

/-! Deadlock.

A step reports a deadlock only in a quiescent state, where no handle is left that can run.
In such a state it does so at once, unless the heap still holds an uncancelled timer of a
crashed task: then the step goes to that timer, or to a deadline before it. -/
namespace Simloom
open Theory
variable {R : RandomSource} {σ J κ : Type}

def LoopError.isDeadlock : LoopError → Bool
  | .deadlock _ => true
  | _ => false

namespace SimLoop
variable {c : LoopConfig R σ J κ} {l : SimLoop R σ J κ}

/-- A call ended by a deadlock. -/
def Turn.isDeadlock (turn : Turn R σ J κ) : Bool := turn.2.any LoopError.isDeadlock

theorem Turn.isDeadlock_of_raised {turn : Turn R σ J κ} {waiting : List String}
    (h : turn.2 = some (.deadlock waiting)) : Turn.isDeadlock turn = true := by
  rw [isDeadlock, h]
  rfl

/-- Every handle that is ready or scheduled is cancelled or of a crashed task. -/
def Quiescent (l : SimLoop R σ J κ) : Prop :=
  ∀ h ∈ l.agenda.ready ++ l.agenda.scheduled, l.agenda.isDead h = true

/-! ### Where no deadlock is raised -/

theorem conclude_noDeadlock (verdict : MonitorSet σ × Option Violation) :
    Turn.isDeadlock (l.conclude verdict) = false := by
  obtain ⟨ms, v⟩ := verdict
  cases v <;> rfl

theorem finishStep_noDeadlock (result : SimLoop R σ J κ × Option PyException) :
    Turn.isDeadlock (finishStep result) = false := by
  obtain ⟨l, e⟩ := result
  cases e with
  | some e => rfl
  | none =>
    dsimp only [finishStep]
    split
    · exact conclude_noDeadlock _
    · rfl

theorem choose_noDeadlock : Turn.isDeadlock (l.choose c) = false := by
  unfold choose
  split
  · rfl
  · split
    · rfl
    · dsimp only [execute]
      split
      · rfl
      · exact finishStep_noDeadlock _

/-! ### Quiescence -/

/-- A deadlock is raised where nothing is left, and nowhere else. -/
theorem runOnce_deadlock : Turn.isDeadlock (l.runOnce c) = true ↔
    l.tidy.agenda.ready = [] ∧ l.tidy.agenda.scheduled = [] := by
  have hs := settles c l
  unfold runOnce
  generalize l.settle c = s at hs
  cases hs with
  | ready hready => simp [choose_noDeadlock, hready]
  | deadlock hready hscheduled =>
    exact ⟨fun _ => ⟨hready, hscheduled⟩, fun _ => rfl⟩
  | due hready hscheduled hdeadline hdue => simp [checkDue, conclude_noDeadlock, hscheduled]
  | jump hready hscheduled hdeadline => simp [choose_noDeadlock, hscheduled]

/-- It leaves the clock and reports nothing else. -/
theorem runOnce_of_nil (hready : l.tidy.agenda.ready = []) (hscheduled : l.tidy.agenda.scheduled = []) :
    l.runOnce c = l.tidy.reportDeadlock c := by
  have hs := settles c l
  unfold runOnce
  generalize l.settle c = s at hs
  cases hs with
  | ready hnot => exact absurd hready hnot
  | deadlock => rfl
  | due _ hcons => exact nomatch hscheduled.symm.trans hcons
  | jump _ hcons => exact nomatch hscheduled.symm.trans hcons

/-- The next step does what the oracle promises: in a quiescent state it raises a deadlock,
without advancing the clock and with nothing but the deadlock in the log; and it raises one
in no other state. -/
def Oracle (c : LoopConfig R σ J κ) (l : SimLoop R σ J κ) : Prop :=
  (l.Quiescent → ∃ waiting, (l.runOnce c).2 = some (.deadlock waiting) ∧
    (l.runOnce c).1.now = l.now ∧
    (l.runOnce c).1.log = l.log ++ [⟨"deadlock", l.now, [("pending", .arr (waiting.map .str))]⟩]) ∧
  (Turn.isDeadlock (l.runOnce c) = true → l.Quiescent)

/-- **Deadlock is reported where it forms and nowhere else**, exactly where the heap of a
quiescent state holds no uncancelled timer. -/
theorem oracle_iff (c : LoopConfig R σ J κ) (l : SimLoop R σ J κ) :
    Oracle c l ↔ (l.Quiescent → ∀ h ∈ l.agenda.scheduled, l.agenda.isCancelled h = true) := by
  constructor
  · rintro ⟨hraises, _⟩ hquiet
    obtain ⟨waiting, hdeadlock, _⟩ := hraises hquiet
    exact tidy_scheduled_nil.mp (runOnce_deadlock.mp (Turn.isDeadlock_of_raised hdeadlock)).2
  · refine fun h => ⟨fun hquiet => ?_, fun hturn => ?_⟩
    · have hready : l.tidy.agenda.ready = [] :=
        tidy_ready_nil.mpr fun x hx => hquiet x (List.mem_append_left _ hx)
      rw [runOnce_of_nil hready (tidy_scheduled_nil.mpr (h hquiet))]
      refine ⟨_, rfl, tidy_now l, ?_⟩
      rw [← tidy_now l]
      rfl
    · obtain ⟨hready, hscheduled⟩ := runOnce_deadlock.mp hturn
      intro x hx
      rcases List.mem_append.mp hx with hx | hx
      · exact tidy_ready_nil.mp hready x hx
      · rw [Agenda.isDead, tidy_scheduled_nil.mp hscheduled x hx, Bool.true_or]

instance (l : SimLoop R σ J κ) : Decidable l.Quiescent :=
  inferInstanceAs (Decidable (∀ h ∈ l.agenda.ready ++ l.agenda.scheduled, l.agenda.isDead h = true))

/-- A crashed task has left a timer, and the step goes on to the goal's deadline. -/
theorem deadlock_masked : ¬ ∀ (c : LoopConfig zeroSource Nat Nat Unit)
    (es : List (Drive zeroSource Nat Nat)), Oracle c ((start 0 0 (.generate 0) ()).after c es) := by
  intro h
  obtain ⟨waiting, hdeadlock, _⟩ := (h (scriptedLoop (fun _ => []) [] 0 10)
    [does [.eventually "goal" (fun s _ => s == 1) 1, .callAt 5 ⟨0, some 7⟩, .crashTasks [7]]]).1
      (by decide +kernel)
  exact absurd (Turn.isDeadlock_of_raised hdeadlock) (by decide +kernel)

end SimLoop

end Simloom
