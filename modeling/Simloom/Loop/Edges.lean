import Simloom.Loop.Causal

/-! Every step names its true cause, in any run that can be traced.

A run is followed with its chronicle. Two runs show what it takes: one that makes a timer
twice, and one that goes on after a drain. -/
namespace Simloom
open Theory SimLoop
variable {R : RandomSource} {σ J κ : Type}

/-- The step that an event names. -/
def Event.wokeBy (e : Event) : Option (Option Int) :=
  match e.field "woke_by" with
  | some .null => some none
  | some (.int step) => some (some step)
  | _ => none

namespace Chronicle
variable {c : LoopConfig R σ J κ} {w : Chronicle R σ J κ} {l' : SimLoop R σ J κ} {h : Handle J}

/-- The chronicle follows the loop. -/
theorem drained_loop : (w.drained c).loop = (w.loop.drainReady c 1).1 := by
  unfold drained
  split <;> rfl

theorem drain_loop (limit : Nat) (w : Chronicle R σ J κ) :
    (w.drain c limit).loop = (w.loop.drainReady c limit).1 := by
  induction limit generalizing w with
  | zero => rfl
  | succ limit ih =>
    rw [drain, drainReady_succ limit]
    cases hturn : w.loop.drainReady c 1 with
    | mk m e =>
      have hm : (w.drained c).loop = m := by rw [drained_loop, hturn]
      cases e with
      | none => exact hm
      | some e =>
        cases e with
        | drainLimit =>
          show (drain c limit (w.drained c)).loop = _
          rw [ih, hm]
        | _ => exact hm

theorem play_loop (w : Chronicle R σ J κ) (e : Drive R σ J) :
    (w.play c e).loop = (w.loop.drive c e).1 := by
  cases e with
  | drain limit => exact drain_loop limit w
  | _ => rfl

/-- The chronicle of a run. -/
def after (c : LoopConfig R σ J κ) (w : Chronicle R σ J κ) (es : List (Drive R σ J)) :
    Chronicle R σ J κ := es.foldl (fun w e => w.play c e) w

theorem after_loop (w : Chronicle R σ J κ) (es : List (Drive R σ J)) :
    (w.after c es).loop = w.loop.after c es := by
  induction es generalizing w with
  | nil => rfl
  | cons e rest ih =>
    show ((w.play c e).after c rest).loop = ((w.loop.drive c e).1).after c rest
    rw [ih, play_loop]

theorem run_after (w : Chronicle R σ J κ) (es : List (Drive R σ J)) :
    Transition.run (move c) w es = some (w.after c es) := by
  induction es generalizing w with
  | nil => rfl
  | cons e rest ih => exact Transition.run_cons.mpr ⟨_, rfl, ih _⟩

/-! ### What every call keeps -/

structure Inv (c : LoopConfig R σ J κ) (w : Chronicle R σ J κ) : Prop where
  noted : Noted c w.births w.barrier w.loop
  hand : w.loop.agenda.hand = none
  causes : w.CausesTrue

theorem TrueCause.append {births later : List Nat} {number : Nat} {e : Event}
    (ht : TrueCause births number h e) : TrueCause (births ++ later) number h e := by
  obtain ⟨birth, hbirth, hrest⟩ := ht
  obtain ⟨hlt, _⟩ := List.getElem?_eq_some_iff.mp hbirth
  exact ⟨birth, by rw [List.getElem?_append_left hlt, hbirth], hrest⟩

/-- No step was made. -/
theorem Inv.notes (hi : Inv c w) (hn : Noting c w.births w.barrier w.loop l')
    (hhand : l'.agenda.hand = none) : Inv c (w.note none l') where
  noted := hn.noted
  hand := hhand
  causes := by
    have hstepped : (w.note none l').stepped = w.stepped := List.append_nil _
    unfold CausesTrue
    rw [hstepped]
    refine ⟨hi.causes.1.trans hn.stepCount.symm, fun number h e hh he => ?_⟩
    exact (hi.causes.2 number h e hh (hn.steps ▸ he)).append

theorem Inv.quiet (hi : Inv c w) (hq : Quiet w.loop l') (hhand : l'.agenda.hand = none) :
    Inv c (w.note none l') := hi.notes (hi.noted.noting_quiet hq) hhand

/-- A step was made. -/
theorem Inv.steps (hi : Inv c w) {barrier : Option Nat}
    (hs : Steps c w.births barrier w.loop l' h) (hhand : l'.agenda.hand = none) :
    Inv c {w.note (some h) l' with barrier := barrier} where
  noted := hs.noted
  hand := hhand
  causes := by
    obtain ⟨e, hsteps, hcause⟩ := hs.event
    have hlength := hi.causes.1
    refine ⟨?_, fun number k e' hk he => ?_⟩
    · show (w.stepped ++ [h]).length = l'.steps.length
      rw [hsteps, List.length_append, List.length_append, hlength]
      rfl
    · show TrueCause (w.births ++ _) number k e'
      change (w.stepped ++ [h])[number]? = some k at hk
      change l'.steps[number]? = some e' at he
      rw [hsteps] at he
      rcases Nat.lt_trichotomy number w.stepped.length with hlt | heq | hgt
      · rw [List.getElem?_append_left hlt] at hk
        rw [List.getElem?_append_left (by rw [← stepCount, ← hlength]; exact hlt)] at he
        exact (hi.causes.2 number k e' hk he).append
      · rw [heq, List.getElem?_concat_length, Option.some.injEq] at hk
        rw [heq, hlength, stepCount, List.getElem?_concat_length, Option.some.injEq] at he
        rw [← hk, ← he, heq, hlength]
        exact hcause.append
      · rw [List.getElem?_eq_none (by simp; omega)] at hk
        cases hk

section Kept
variable (hsame : LawfulSame c.code.same) (hcausal : c.causal = true) (hhonest : HonestCode c.code)
include hsame hcausal hhonest

theorem Inv.once (hi : Inv c w) (ht : w.Traceable c .once) : Inv c (w.play c .once) := by
  have hhand : (w.loop.runOnce c).1.agenda.hand = none :=
    (show Follows True True w.loop.agenda _ ∧ _ from
      drive_follows hi.hand .once (fun _ _ => trivial) fun _ _ => trivial).2
  cases hnext : w.loop.nextStep c with
  | none =>
    show Inv c (w.note ((w.loop.nextStep c).map Pick.handle) (w.loop.runOnce c).1)
    rw [hnext]
    exact hi.quiet (runOnce_of_none hi.hand hnext) hhand
  | some p =>
    obtain ⟨hb, hapart⟩ := ht p hnext
    obtain ⟨hrun, hquiet, htake⟩ := runOnce_of_some hi.hand hnext
    show Inv c (w.note ((w.loop.nextStep c).map Pick.handle) (w.loop.runOnce c).1)
    rw [hnext]
    refine hi.steps (Steps.of_quiet ?_ hquiet) hhand
    rw [hrun]
    exact execute_steps hsame hcausal hhonest (hi.noted.quiet hquiet) htake hb hapart

theorem Inv.drained (hi : Inv c w) (ht : w.DrainedTraceable c) : Inv c (w.drained c) := by
  have hhand : (w.loop.drainReady c 1).1.agenda.hand = none :=
    (show Follows True True w.loop.agenda _ ∧ _ from drainReady_follows 1 hi.hand).2
  unfold Chronicle.drained
  cases hnext : w.loop.nextDrained c with
  | none => exact hi.quiet (drainReady_of_none hnext) hhand
  | some p =>
    obtain ⟨hb, hapart⟩ := ht p hnext
    obtain ⟨hrest, hquiet, htake⟩ := drainReady_of_some hi.hand hnext
    have hstep := drainStep_steps hsame hcausal hhonest (hi.noted.quiet hquiet) htake hb hapart
    rw [hquiet.made] at hstep
    exact hi.steps ((hstep.quiet hrest).of_quiet hquiet) hhand

theorem Inv.drain (limit : Nat) {w : Chronicle R σ J κ} (hi : Inv c w)
    (ht : DrainTraceable c limit w) : Inv c (w.drain c limit) := by
  induction limit generalizing w with
  | zero => exact hi
  | succ limit ih =>
    obtain ⟨hstep, hrest⟩ := ht
    have hdrained := hi.drained hsame hcausal hhonest hstep
    unfold Chronicle.drain
    split at hrest
    next => exact ih hdrained hrest
    next => exact hdrained

/-- Code outside of the loop's steps logs none either. -/
def HonestDrive : Drive R σ J → Prop
  | .outside code => Honest code
  | _ => True

theorem Inv.play (hi : Inv c w) {e : Drive R σ J} (hdrive : HonestDrive e) (ht : w.Traceable c e) :
    Inv c (w.play c e) := by
  have hhand : (w.loop.drive c e).1.agenda.hand = none :=
    (show Follows True True w.loop.agenda _ ∧ _ from
      drive_follows hi.hand e (fun _ _ => trivial) fun _ _ => trivial).2
  have hsilent {l' : SimLoop R σ J κ} (hq : Quiet w.loop l') (hhand : l'.agenda.hand = none) :
      Inv c (w.note none l') := hi.quiet hq hhand
  cases e with
  | once => exact hi.once hsame hcausal hhonest ht
  | drain limit => exact Inv.drain hsame hcausal hhonest limit hi ht
  | outside code => exact hi.notes (perform_notes hsame hcausal hi.noted hdrive ht) hhand
  | finalize =>
    refine hsilent ?_ hhand
    unfold drive finalizeMonitors
    dsimp only
    split
    · exact .refl _
    · exact quiet_conclude _
  | leave => exact hsilent ⟨rfl, rfl, rfl, rfl, rfl, rfl, id, fun _ _ => Iff.rfl⟩ hhand
  | unmonitor => exact hsilent ⟨rfl, rfl, rfl, rfl, rfl, rfl, id, fun _ _ => Iff.rfl⟩ hhand
  | revive =>
    refine hsilent ⟨rfl, rfl, rfl, rfl, rfl, rfl,
      fun hd => Agenda.keeps_distinct _ .reviveCrashed _ trivial hd rfl, fun h _ => ?_⟩ hhand
    simp [drive, reviveCrashed, Agenda.reviveCrashed, pending]
    grind

end Kept

theorem inv_start (epoch : ℚ) (user : σ) (tape : Tape R) (scheduler : κ) :
    Inv c (.of (start epoch user tape scheduler) : Chronicle R σ J κ) where
  noted := {
    counted := rfl
    past := fun _ hb => nomatch hb
    distinct := Agenda.distinct_start epoch
    numbered := fun _ => ⟨rfl, rfl⟩
    fresh := fun _ => rfl
    walled := fun _ hb => nomatch hb
    keys := fun _ he => nomatch he
    apart := .nil
    unlike := fun _ hh => nomatch hh
    cause := fun _ hh => nomatch hh
    own := fun _ hh => nomatch hh }
  hand := rfl
  causes := ⟨rfl, fun _ _ _ hh => nomatch hh⟩

/-- **Every step names its true cause**, in any run in which no timer is made that equals a
pending one and nothing runs that was made since a drain ran its first step. -/
theorem causes_true (c : LoopConfig R σ J κ) (hcausal : c.causal = true)
    (hsame : LawfulSame c.code.same) (hhonest : HonestCode c.code) (epoch : ℚ) (user : σ)
    (tape : Tape R) (scheduler : κ) (es : List (Drive R σ J)) (hdrives : ∀ e ∈ es, HonestDrive e)
    (htraceable : Transition.Along (move c) (Traceable c)
      (.of (start epoch user tape scheduler)) es) :
    let w := after c (.of (start epoch user tape scheduler)) es
    w.loop = (start epoch user tape scheduler).after c es ∧ w.CausesTrue := by
  intro w
  have hkeeps : Transition.Keeps (move c) (fun w e => HonestDrive e ∧ w.Traceable c e) (Inv c) := by
    rintro w e w' ⟨hdrive, ht⟩ hi hmove
    exact Option.some.inj hmove ▸ hi.play hsame hcausal hhonest hdrive ht
  refine ⟨after_loop _ es, (hkeeps.run ?_ (inv_start epoch user tape scheduler)
    (run_after _ es)).causes⟩
  exact (Transition.along_of_forall (fun e he _ => hdrives e he) _).and htraceable

/-! ### Runs -/

/-- A loop that notes causes, whose callbacks do what a script lists. -/
def causalLoop (script : Nat → List (Deed Nat Nat)) : LoopConfig zeroSource Nat Nat Unit :=
  {scriptedLoop script [] 0 10 with causal := true}

theorem not_causesTrue (number cause : Nat)
    (hbirth : (w.stepped[number]?.bind fun h => w.births[h.id]?) = some (cause + 1))
    (hnamed : (w.loop.steps[number]?.bind Event.wokeBy) ≠ some (some (cause : Int))) :
    ¬w.CausesTrue := by
  rintro ⟨hlength, hall⟩
  obtain ⟨h, hh, hb⟩ := Option.bind_eq_some_iff.mp hbirth
  obtain ⟨hlt, _⟩ := List.getElem?_eq_some_iff.mp hh
  have he : w.loop.steps[number]? = some w.loop.steps[number] :=
    List.getElem?_eq_getElem (hlength.symm.trans_gt hlt)
  obtain ⟨birth, hbirth', _, hfields⟩ := hall number h _ hh he
  obtain rfl : cause + 1 = birth := Option.some.inj (hb.symm.trans hbirth')
  refine hnamed ?_
  rw [he, Option.bind_some]
  unfold Event.wokeBy
  rw [hfields.1]

/-- The first callback makes the same timer twice. -/
def twice : Nat → List (Deed Nat Nat)
  | 0 => [.callAt 5 ⟨1, none⟩, .callAt 5 ⟨1, none⟩]
  | _ => []

/-- The first callback makes another. -/
def once : Nat → List (Deed Nat Nat)
  | 0 => [.callSoon ⟨1, none⟩]
  | _ => []

/-- The second of two equal timers has no cause, and neither has what a step of a drain
makes. -/
theorem causes_lost :
    ¬(after (causalLoop twice) (.of (start 0 0 (.generate 0) ()))
      [does [.callSoon ⟨0, none⟩], .once, .once, .once]).CausesTrue ∧
    ¬(after (causalLoop once) (.of (start 0 0 (.generate 0) ()))
      [does [.callSoon ⟨0, none⟩], .drain 3]).CausesTrue :=
  ⟨not_causesTrue 2 0 (by decide +kernel) (by decide +kernel),
    not_causesTrue 1 0 (by decide +kernel) (by decide +kernel)⟩

/-- The first callback makes two timers and a handle. -/
def apart : Nat → List (Deed Nat Nat)
  | 0 => [.callAt 5 ⟨1, none⟩, .callAt 6 ⟨1, none⟩, .callSoon ⟨2, none⟩]
  | _ => []

theorem honest_scripted {script : Nat → List (Deed Nat Nat)}
    (h : ∀ job, ∀ d ∈ script job, ∀ e, d ≠ .emit e) : HonestCode (causalLoop script).code where
  call := fun job _ _ _ _ d hd e he => absurd he (h job d hd e)
  collect := fun _ _ _ _ _ hd => nomatch hd

theorem honest_does {ds : List (Deed Nat Nat)} (h : ∀ d ∈ ds, ∀ e, d ≠ .emit e) :
    HonestDrive (does ds) := fun _ _ _ _ d hd e he => absurd he (h d hd e)

theorem lawful_scripted (script : Nat → List (Deed Nat Nat)) :
    LawfulSame (causalLoop script).code.same where
  refl := fun f => by simp [causalLoop, scriptedLoop, scripted]
  symm := fun f g h => by
    simp only [causalLoop, scriptedLoop, scripted, Bool.and_eq_true, beq_iff_eq] at h ⊢
    exact ⟨h.1.symm, h.2.symm⟩

theorem causes_true_apart :
    (after (causalLoop apart) (.of (start 0 0 (.generate 0) ()))
      [does [.callSoon ⟨0, none⟩], .once, .once, .once, .once, .drain 3]).CausesTrue := by
  refine (causes_true (causalLoop apart) rfl (lawful_scripted _) (honest_scripted ?_) 0 0
    (.generate 0) () _ ?_ ?_).2
  · intro job d hd e
    cases job <;> simp [apart] at hd
    rcases hd with rfl | rfl | rfl <;> simp
  · intro e he
    simp only [List.mem_cons, List.not_mem_nil, or_false] at he
    rcases he with rfl | rfl | rfl | rfl | rfl | rfl <;> try exact trivial
    exact honest_does (by simp)
  · decide +kernel

end Chronicle

end Simloom
