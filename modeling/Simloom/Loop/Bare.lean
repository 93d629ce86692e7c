import Simloom.Loop.Verdict
import Simloom.Loop.Drive

/-! The loop without monitors.

`bare` forgets the monitors of a loop, `muted` leaves out of a program what registers them.
What the loop does commutes with forgetting, except where it waits: there deadlines end calls
before time comes to the next timer (`Perturbation`). -/
namespace Simloom
variable {R : RandomSource} {σ J κ : Type}

/-- Deeds that register a monitor. -/
def Deed.isRegistration : Deed σ J → Bool
  | .always .. | .eventually .. | .leadsTo .. => true
  | _ => false

/-- The same code, registering no monitor. -/
def muted (code : Code R σ J) : Code R σ J := fun s now made t =>
  let effect := code s now made t
  {effect with deeds := effect.deeds.filter fun d => !d.isRegistration}

/-- The same program, registering no monitor. -/
def LoopConfig.muted (c : LoopConfig R σ J κ) : LoopConfig R σ J κ :=
  {c with code := {c.code with
    call := fun job => Simloom.muted (c.code.call job)
    collect := Simloom.muted c.code.collect}}

namespace SimLoop
variable (c : LoopConfig R σ J κ) (l : SimLoop R σ J κ)

/-- A loop without its monitors. -/
def bare : SimLoop R σ J κ := {l with monitors := .new}

theorem bare_registration {d : Deed σ J} (hd : d.isRegistration = true) :
    (l.deed c d).bare = l.bare := by
  cases d <;> first | rfl | cases hd

theorem bare_setCause (h : Handle J) (cause : Cause) (causes : List (Handle J × Cause)) :
    l.bare.setCause c.muted h cause causes = l.setCause c h cause causes := by
  induction causes with
  | nil => rfl
  | cons entry rest ih =>
    rw [setCause, setCause, ih]
    rfl

theorem bare_noteCause (h : Handle J) (via : String) :
    l.bare.noteCause c.muted h via = (l.noteCause c h via).bare := by
  unfold noteCause
  rw [apply_ite bare, bare_setCause]
  rfl

theorem bare_deed {d : Deed σ J} (hd : d.isRegistration = false) :
    l.bare.deed c.muted d = (l.deed c d).bare := by
  cases d with
  | callSoon call =>
    simp only [deed, bare_noteCause]
    rfl
  | callAt time call =>
    simp only [deed, bare_noteCause]
    rfl
  | always | eventually | leadsTo => cases hd
  | _ => rfl

theorem bare_deeds (deeds : List (Deed σ J)) :
    (deeds.filter fun d => !d.isRegistration).foldl (fun l d => l.deed c.muted d) l.bare =
      (deeds.foldl (fun l d => l.deed c d) l).bare := by
  induction deeds generalizing l with
  | nil => rfl
  | cons d rest ih =>
    cases hd : d.isRegistration with
    | true => simp only [List.filter, hd, Bool.not_true, List.foldl_cons, ← ih, bare_registration c l hd]
    | false => simp only [List.filter, hd, Bool.not_false, List.foldl_cons, ← ih, bare_deed c l hd]

/-- Running code commutes with forgetting the monitors. -/
theorem bare_perform (code : Code R σ J) :
    l.bare.perform c.muted (Simloom.muted code) = ((l.perform c code).1.bare, (l.perform c code).2) :=
  Prod.ext (bare_deeds c {l with
    user := (code l.user l.now l.agenda.made l.tape).state
    tape := (code l.user l.now l.agenda.made l.tape).tape} _) rfl

theorem bare_collectGarbage : l.bare.collectGarbage c.muted = (l.collectGarbage c).bare :=
  congrArg (fun turn => turn.1.emit "gc_collect" []) (bare_perform c l c.code.collect)

theorem bare_collectDue : l.bare.collectDue c.muted = (l.collectDue c).bare := by
  unfold collectDue
  rw [apply_ite bare, ← bare_collectGarbage]
  rfl

theorem bare_runHandle (h : Handle J) :
    l.bare.runHandle c.muted h = ((l.runHandle c h).1.bare, (l.runHandle c h).2) :=
  bare_perform c {l with agenda := l.agenda.run} (c.code.call h.call.job)

theorem bare_drainStep (index count : Nat) (h : Handle J) :
    l.bare.drainStep c.muted index count h =
      ((l.drainStep c index count h).1.bare, (l.drainStep c index count h).2) :=
  bare_runHandle c (l.takeStep c index count h) h

theorem bare_jump (target : ℚ) : l.bare.jump target = (l.jump target).bare := by
  unfold jump
  rw [apply_ite bare]
  rfl

/-! ### A step -/

/-- A violation ended the call. -/
def Violated (e : Option LoopError) : Prop := ∃ v, e = some (.violation v)

theorem not_violated_none : ¬ Violated none := fun ⟨_, h⟩ => nomatch h

variable {c l} {n : SimLoop R σ J κ} {e : Option LoopError}

theorem conclude_bare {ms : MonitorSet σ × Option Violation} (h : l.conclude ms = (n, e))
    (hv : ¬ Violated e) : e = none ∧ l.bare = n.bare := by
  obtain ⟨ms, v⟩ := ms
  cases v with
  | none =>
    obtain ⟨rfl, rfl⟩ := Prod.mk.inj h
    exact ⟨rfl, rfl⟩
  | some v => exact absurd ⟨v, (Prod.mk.inj h).2.symm⟩ hv

theorem finishStep_bare {turn : SimLoop R σ J κ × Option PyException}
    (h : finishStep turn = (n, e)) (hv : ¬ Violated e) :
    finishStep (turn.1.bare, turn.2) = (n.bare, e) := by
  obtain ⟨m, raised⟩ := turn
  cases raised with
  | some error =>
    obtain ⟨rfl, rfl⟩ := Prod.mk.inj h
    rfl
  | none =>
    dsimp only [finishStep] at h ⊢
    rw [if_neg (by simp [bare, MonitorSet.new, MonitorSet.isEmpty])]
    split at h
    · obtain ⟨rfl, hbare⟩ := conclude_bare h hv
      exact congrArg (·, none) hbare
    · obtain ⟨rfl, rfl⟩ := Prod.mk.inj h
      rfl

theorem execute_bare {index count : Nat} {h : Handle J} (hn : l.execute c index count h = (n, e))
    (hv : ¬ Violated e) : l.bare.execute c.muted index count h = (n.bare, e) := by
  unfold execute at hn ⊢
  dsimp only at hn ⊢
  show ite _ _ _ = _
  split at hn
  next hlate =>
    obtain ⟨rfl, rfl⟩ := Prod.mk.inj hn
    rw [if_pos]
    · rfl
    · exact hlate
  next hintime =>
    rw [if_neg]
    · have hfinish := finishStep_bare hn hv
      rwa [← bare_runHandle, ← bare_collectDue] at hfinish
    · exact hintime

theorem choose_bare (hn : l.choose c = (n, e)) (hv : ¬ Violated e) :
    l.bare.choose c.muted = (n.bare, e) := by
  unfold choose at hn ⊢
  rw [show l.bare.agenda = l.agenda from rfl]
  split at hn
  · obtain ⟨rfl, rfl⟩ := Prod.mk.inj hn
    rfl
  next first rest _ =>
    rw [show c.muted.scheduler.pick first rest l.bare.scheduler l.bare.tape =
      c.scheduler.pick first rest l.scheduler l.tape from rfl]
    generalize c.scheduler.pick first rest l.scheduler l.tape = picked at hn ⊢
    obtain ⟨error | index, scheduler, tape⟩ := picked
    · obtain ⟨rfl, rfl⟩ := Prod.mk.inj hn
      rfl
    · exact execute_bare (l := {l with scheduler := scheduler, tape := tape}) hn hv

end SimLoop

end Simloom
