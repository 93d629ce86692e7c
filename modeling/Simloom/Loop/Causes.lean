import Simloom.Loop.Chronicle

/-! The dictionary of causes.

Causes are kept in a dictionary whose keys are handles. As long as no timer is made that
equals a pending one, the entry that a step finds is the one that its own handle was entered
under (`Noted`); and as long as no drain has run a step, steps are numbered as they are
logged. -/
namespace Simloom.SimLoop
open Theory
variable {R : RandomSource} {σ J κ : Type}

/-! ### Equal handles -/

/-- Equality of callbacks with their arguments is one. -/
structure LawfulSame (same : Callable J → Callable J → Bool) : Prop where
  refl : ∀ f, same f f = true
  symm : ∀ f g, same f g = true → same g f = true

/-- Equality of two handles of which neither is cancelled. -/
def Alike (c : LoopConfig R σ J κ) (h k : Handle J) : Prop :=
  if h.timer.isSome ∧ k.timer.isSome then h.timer = k.timer ∧ c.code.same h.call k.call = true
  else h.id = k.id

variable {c : LoopConfig R σ J κ} {l l' : SimLoop R σ J κ} {h k : Handle J}

theorem alike_refl (hsame : LawfulSame c.code.same) (h : Handle J) : Alike c h h := by
  unfold Alike
  split
  · exact ⟨rfl, hsame.refl _⟩
  · rfl

theorem Alike.symm (hsame : LawfulSame c.code.same) (hk : Alike c h k) : Alike c k h := by
  unfold Alike at hk ⊢
  by_cases ht : h.timer.isSome ∧ k.timer.isSome
  · rw [if_pos ht] at hk
    rw [if_pos ht.symm]
    exact ⟨hk.1.symm, hsame.symm _ _ hk.2⟩
  · rw [if_neg ht] at hk
    rw [if_neg fun hs => ht hs.symm]
    exact hk.symm

/-- Of a handle that is not cancelled. -/
theorem equalHandles_iff (hlive : l.agenda.isCancelled h = false) :
    l.equalHandles c h k = true ↔ Alike c h k ∧ l.agenda.isCancelled k = false := by
  unfold equalHandles Alike
  by_cases ht : h.timer.isSome ∧ k.timer.isSome
  · rw [if_pos ht, if_pos (by simp [ht]), hlive]
    simp
  · rw [if_neg ht, if_neg (by simpa using ht), beq_iff_eq]
    refine ⟨fun hid => ⟨hid, ?_⟩, And.left⟩
    rw [← hlive]
    unfold Agenda.isCancelled
    rw [hid]

theorem equalHandles_cancelled (heq : l.equalHandles c h k = true) :
    l.agenda.isCancelled k = l.agenda.isCancelled h := by
  unfold equalHandles at heq
  split at heq
  · simp only [Bool.and_eq_true, beq_iff_eq] at heq
    exact heq.2.symm
  · unfold Agenda.isCancelled
    rw [beq_iff_eq.mp heq]

/-! ### The dictionary of causes -/

/-- The keys stay, or a new one joins them that equals none. -/
theorem setCause_keys (cause : Cause) (entries : List (Handle J × Cause)) :
    ((∃ entry ∈ entries, l.equalHandles c h entry.1 = true) ∧
      (l.setCause c h cause entries).map Prod.fst = entries.map Prod.fst) ∨
    ((∀ entry ∈ entries, l.equalHandles c h entry.1 = false) ∧
      l.setCause c h cause entries = entries ++ [(h, cause)]) := by
  induction entries with
  | nil => exact .inr ⟨by simp, rfl⟩
  | cons entry rest ih =>
    rw [setCause]
    by_cases hentry : l.equalHandles c h entry.1 = true
    · rw [if_pos hentry]
      exact .inl ⟨⟨entry, List.mem_cons_self, hentry⟩, rfl⟩
    · rw [if_neg hentry]
      rcases ih with ⟨⟨e, he, heq⟩, hkeys⟩ | ⟨hnone, hnew⟩
      · exact .inl ⟨⟨e, List.mem_cons_of_mem _ he, heq⟩, by simp [hkeys]⟩
      · refine .inr ⟨fun e he => ?_, by rw [hnew]; rfl⟩
        rcases List.mem_cons.mp he with rfl | he
        · exact Bool.eq_false_iff.mpr hentry
        · exact hnone e he

theorem mem_setCause {cause : Cause} {entries : List (Handle J × Cause)} {entry : Handle J × Cause}
    (he : entry ∈ l.setCause c h cause entries) : entry ∈ entries ∨ entry.2 = cause ∧
      (entry.1 = h ∨ l.equalHandles c h entry.1 = true ∧ entry.1 ∈ entries.map Prod.fst) := by
  induction entries with
  | nil =>
    rw [List.mem_singleton.mp he]
    exact .inr ⟨rfl, .inl rfl⟩
  | cons first rest ih =>
    rw [setCause] at he
    by_cases hfirst : l.equalHandles c h first.1 = true
    · rw [if_pos hfirst] at he
      rcases List.mem_cons.mp he with rfl | he
      · exact .inr ⟨rfl, .inr ⟨hfirst, List.mem_cons_self⟩⟩
      · exact .inl (List.mem_cons_of_mem _ he)
    · rw [if_neg hfirst] at he
      rcases List.mem_cons.mp he with rfl | he
      · exact .inl List.mem_cons_self
      · refine (ih he).imp (List.mem_cons_of_mem _) (And.imp_right (Or.imp_right ?_))
        exact And.imp_right (List.mem_cons_of_mem _)

theorem mem_setCause_of_mem (cause : Cause) {entries : List (Handle J × Cause)}
    {entry : Handle J × Cause} (he : entry ∈ entries) :
    entry ∈ l.setCause c h cause entries ∨ l.equalHandles c h entry.1 = true := by
  induction entries with
  | nil => cases he
  | cons first rest ih =>
    rw [setCause]
    by_cases hfirst : l.equalHandles c h first.1 = true
    · rw [if_pos hfirst]
      rcases List.mem_cons.mp he with rfl | he
      · exact .inr hfirst
      · exact .inl (List.mem_cons_of_mem _ he)
    · rw [if_neg hfirst]
      rcases List.mem_cons.mp he with rfl | he
      · exact .inl List.mem_cons_self
      · exact (ih he).imp_left (List.mem_cons_of_mem _)

/-- What is left of what an erasure looks for comes after what it erased. -/
theorem exists_of_mem_eraseP {α : Type} {p : α → Bool} {related : α → α → Prop} {xs : List α} {x : α}
    (h : xs.Pairwise related) (hx : x ∈ xs.eraseP p) (hp : p x = true) :
    ∃ a ∈ xs, p a = true ∧ related a x := by
  induction xs with
  | nil => cases hx
  | cons a rest ih =>
    obtain ⟨ha, hrest⟩ := List.pairwise_cons.mp h
    by_cases hpa : p a = true
    · rw [List.eraseP_cons_of_pos hpa] at hx
      exact ⟨a, List.mem_cons_self, hpa, ha x hx⟩
    · rw [List.eraseP_cons_of_neg hpa] at hx
      rcases List.mem_cons.mp hx with rfl | hx
      · exact absurd hp hpa
      · obtain ⟨b, hb, hrelated⟩ := ih hrest hx
        exact ⟨b, List.mem_cons_of_mem _ hb, hrelated⟩

/-! ### The invariant -/

/-- The number of the last of so many steps. -/
def lastStep : Nat → Option Nat
  | 0 => none
  | n + 1 => some n

/-- The step that was last when a handle was made, and how it was made. -/
def Rightly (births : List Nat) (h : Handle J) (cause : Cause) : Prop :=
  ∃ birth, births[h.id]? = some birth ∧ cause.wokeBy = lastStep birth ∧ (birth ≠ 0 → cause.via = h.via)

structure Noted (c : LoopConfig R σ J κ) (births : List Nat) (barrier : Option Nat)
    (l : SimLoop R σ J κ) : Prop where
  counted : births.length = l.agenda.made
  past : ∀ birth ∈ births, birth ≤ l.stepCount
  distinct : l.agenda.Distinct
  /-- Until a drain runs a step, steps are numbered as they are logged. -/
  numbered : barrier = none → l.stepSeq = l.stepCount ∧ l.currentStep = lastStep l.stepCount
  fresh : l.stepCount = 0 → barrier = none
  walled : ∀ b ∈ barrier, b ≤ l.agenda.made
  keys : ∀ entry ∈ l.causes, l.agenda.isCancelled entry.1 = false → entry.1 ∈ l.pending
  apart : (l.causes.map Prod.fst).Pairwise fun h k => l.agenda.isCancelled h = false →
    l.agenda.isCancelled k = false → ¬Alike c k h
  unlike : ∀ h ∈ l.pending, ∀ k ∈ l.pending, l.agenda.isCancelled h = false →
    l.agenda.isCancelled k = false → h.id ≠ k.id → Alike c h k →
      births[h.id]? = some 0 ∧ births[k.id]? = some 0
  cause : ∀ h ∈ l.pending, l.agenda.isCancelled h = false → (∀ b ∈ barrier, h.id < b) →
    ∀ entry ∈ l.causes, l.agenda.isCancelled entry.1 = false → Alike c h entry.1 →
      Rightly births h entry.2
  own : ∀ h ∈ l.pending, l.agenda.isCancelled h = false → births[h.id]? ≠ some 0 →
    ∃ entry ∈ l.causes, entry.1 = h

/-- What changes nothing of the causes and what they are for. -/
structure Quiet (l l' : SimLoop R σ J κ) : Prop where
  causes : l'.causes = l.causes
  currentStep : l'.currentStep = l.currentStep
  stepSeq : l'.stepSeq = l.stepSeq
  steps : l'.steps = l.steps
  made : l'.agenda.made = l.agenda.made
  cancelled : l'.agenda.cancelled = l.agenda.cancelled
  distinct : l.agenda.Distinct → l'.agenda.Distinct
  pending : ∀ h, l.agenda.isCancelled h = false → (h ∈ l'.pending ↔ h ∈ l.pending)

theorem Quiet.refl (l : SimLoop R σ J κ) : Quiet l l :=
  ⟨rfl, rfl, rfl, rfl, rfl, rfl, id, fun _ _ => Iff.rfl⟩

theorem Quiet.isCancelled (hq : Quiet l l') (h : Handle J) :
    l'.agenda.isCancelled h = l.agenda.isCancelled h := by
  unfold Agenda.isCancelled
  rw [hq.cancelled]

theorem Quiet.trans {m : SimLoop R σ J κ} (h : Quiet l m) (h' : Quiet m l') : Quiet l l' where
  causes := h'.causes.trans h.causes
  currentStep := h'.currentStep.trans h.currentStep
  stepSeq := h'.stepSeq.trans h.stepSeq
  steps := h'.steps.trans h.steps
  made := h'.made.trans h.made
  cancelled := h'.cancelled.trans h.cancelled
  distinct := h'.distinct ∘ h.distinct
  pending k hk := (h'.pending k (by rw [h.isCancelled, hk])).trans (h.pending k hk)

theorem Quiet.stepCount (hq : Quiet l l') : l'.stepCount = l.stepCount := by
  unfold SimLoop.stepCount
  rw [hq.steps]

variable {births : List Nat} {barrier : Option Nat}

theorem Noted.quiet (hn : Noted c births barrier l) (hq : Quiet l l') : Noted c births barrier l' where
  counted := hn.counted.trans hq.made.symm
  past birth hb := hq.stepCount ▸ hn.past birth hb
  distinct := hq.distinct hn.distinct
  numbered hb := by
    rw [hq.stepSeq, hq.currentStep, hq.stepCount]
    exact hn.numbered hb
  fresh h0 := hn.fresh (hq.stepCount ▸ h0)
  walled b hb := hq.made ▸ hn.walled b hb
  keys entry he hlive := by
    rw [hq.isCancelled] at hlive
    exact (hq.pending _ hlive).mpr (hn.keys entry (hq.causes ▸ he) hlive)
  apart := by
    rw [hq.causes]
    simp only [hq.isCancelled]
    exact hn.apart
  unlike h hh k hk hlive hlive' hid halike := by
    rw [hq.isCancelled] at hlive hlive'
    exact hn.unlike h ((hq.pending h hlive).mp hh) k ((hq.pending k hlive').mp hk) hlive hlive' hid
      halike
  cause h hh hlive hb entry he hentry halike := by
    rw [hq.isCancelled] at hlive hentry
    exact hn.cause h ((hq.pending h hlive).mp hh) hlive hb entry (hq.causes ▸ he) hentry halike
  own h hh hlive h0 := by
    rw [hq.isCancelled] at hlive
    exact hq.causes ▸ hn.own h ((hq.pending h hlive).mp hh) hlive h0

end Simloom.SimLoop
