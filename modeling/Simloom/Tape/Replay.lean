import Simloom.Tape.Draw

/-! What a draw can do, said once.

`draw_ok` inverts an answered draw. A tape that still follows its recording is
`Feeding` what is left of it: a matching request is answered from the recording
(`Feeding.draw`), and the recording has been replayed exactly when nothing is
left. A tape that cannot refuse is `Willing`; one whose recording is spent and
whose generator is `_ZeroRandom` is `Zeroing` and answers 0 for good. -/
namespace Simloom.Tape
variable {R : RandomSource}

/-! ### Any answered draw -/

/-- The part of a tape that no draw changes. -/
def SameSource (t u : Tape R) : Prop :=
  u.recorded = t.recorded ∧ u.policy = t.policy ∧ u.seed = t.seed

theorem SameSource.refl (t : Tape R) : SameSource t t := ⟨rfl, rfl, rfl⟩

theorem SameSource.trans {t u v : Tape R} (a : SameSource t u) (b : SameSource u v) :
    SameSource t v :=
  ⟨b.1.trans a.1, b.2.1.trans a.2.1, b.2.2.trans a.2.2⟩

theorem improvise_draws (t : Tape R) (bound : Nat) (h : 0 < bound) :
    (t.improvise bound h).2.draws = t.draws ∧ SameSource t (t.improvise bound h).2 :=
  ⟨rfl, rfl, rfl, rfl⟩

theorem diverge_ok {t u : Tape R} {detail : Divergence} (h : t.diverge detail = .ok u) :
    t.policy = .fallback ∧ u = {t with misalignedAt := some t.position} := by
  unfold diverge at h
  cases hp : t.policy with
  | strict => rw [hp] at h; cases h
  | fallback => rw [hp] at h; exact ⟨rfl, (Except.ok.inj h).symm⟩

/-- A divergence that is answered at all is improvised from the noted tape. -/
theorem diverge_map_ok {t u : Tape R} {detail : Divergence} {bound : Nat} {hb : 0 < bound}
    {v : Fin bound} (h : (t.diverge detail).map (·.improvise bound hb) = .ok (v, u)) :
    u.draws = t.draws ∧ SameSource t u := by
  cases hd : t.diverge detail with
  | error e => rw [hd] at h; cases h
  | ok w =>
    rw [hd] at h
    obtain ⟨_, rfl⟩ := diverge_ok hd
    obtain ⟨rfl, rfl⟩ := Prod.mk.inj (Except.ok.inj h)
    exact ⟨rfl, rfl, rfl, rfl⟩

theorem nextValue_ok {t u : Tape R} {label : String} {bound : Nat} {hb : 0 < bound} {v : Fin bound}
    (h : t.nextValue label bound hb = .ok (v, u)) : u.draws = t.draws ∧ SameSource t u := by
  unfold nextValue at h
  split at h
  · obtain ⟨rfl, rfl⟩ := Prod.mk.inj (Except.ok.inj h)
    exact improvise_draws t bound hb
  · split at h
    · obtain ⟨rfl, rfl⟩ := Prod.mk.inj (Except.ok.inj h)
      exact improvise_draws t bound hb
    · split at h
      · exact diverge_map_ok h
      · split at h
        · obtain ⟨rfl, rfl⟩ := Prod.mk.inj (Except.ok.inj h)
          exact ⟨rfl, SameSource.refl t⟩
        · exact diverge_map_ok h

/-- An answered draw records exactly its answer. -/
theorem draw_ok {t u : Tape R} {label : String} {bound : Nat} {v : Fin bound}
    (h : t.draw label bound = .ok (v, u)) :
    u.draws = t.draws ++ [Draw.answer label v] ∧ SameSource t u := by
  unfold draw at h
  split at h
  next hb =>
    cases hn : t.nextValue label bound hb with
    | error e => rw [hn] at h; cases h
    | ok a =>
      rw [hn] at h
      obtain ⟨rfl, rfl⟩ := Prod.mk.inj (Except.ok.inj h)
      obtain ⟨hdraws, hsame⟩ := nextValue_ok hn
      exact ⟨by rw [← hdraws]; rfl, hsame⟩
  next => cases h

/-- The only way a valid request is refused is a divergence. -/
theorem diverge_error {α : Type} {t : Tape R} {detail : Divergence} {f : Tape R → α} {e : TapeError}
    (h : (t.diverge detail).map f = .error e) : e.isMisalignment = true := by
  unfold diverge at h
  split at h
  · rw [← Except.error.inj h]
    rfl
  · cases h

theorem nextValue_error {t : Tape R} {label : String} {bound : Nat} {hb : 0 < bound} {e : TapeError}
    (h : t.nextValue label bound hb = .error e) : e.isMisalignment = true := by
  unfold nextValue at h
  split at h
  · cases h
  · split at h
    · cases h
    · split at h
      · exact diverge_error h
      · split at h
        · cases h
        · exact diverge_error h

theorem draw_error {t : Tape R} {label : String} {bound : Nat} {e : TapeError}
    (h : t.draw label bound = .error e) :
    (bound = 0 ∧ e = .invalidBound 0) ∨ e.isMisalignment = true := by
  unfold draw at h
  split at h
  next hb =>
    cases hn : t.nextValue label bound hb with
    | error e' =>
      rw [hn] at h
      exact .inr (Except.error.inj h ▸ nextValue_error hn)
    | ok a => rw [hn] at h; cases h
  next hb =>
    have hz : bound = 0 := Nat.eq_zero_of_not_pos hb
    subst hz
    exact .inl ⟨rfl, (Except.error.inj h).symm⟩

/-- An invalid bound is refused whatever the tape. -/
theorem draw_zero (t : Tape R) (label : String) : t.draw label 0 = .error (.invalidBound 0) := rfl

/-! ### Following the recording -/

/-- A replaying tape that has not diverged, with `rest` of its recording left. -/
structure Feeding (t : Tape R) (rest : List Draw) : Prop where
  aligned : t.misalignedAt = none
  recorded : ∃ consumed, t.recorded = some (consumed ++ rest) ∧ consumed.length = t.position

theorem replay_feeding (ds : List Draw) (policy : MisalignmentPolicy) (fallbackSeed : Int)
    (fallback : Fallback) : Feeding (replay (R := R) ds policy fallbackSeed fallback) ds :=
  ⟨rfl, [], rfl, rfl⟩

/-- The next recorded draw, if any, is what the tape looks at. -/
theorem Feeding.get {t : Tape R} {rest : List Draw} (h : Feeding t rest) :
    ∃ recorded, t.recorded = some recorded ∧ recorded[t.position]? = rest.head? := by
  obtain ⟨consumed, hr, hl⟩ := h.recorded
  refine ⟨_, hr, ?_⟩
  rw [← hl, List.getElem?_append_right (Nat.le_refl _), Nat.sub_self, List.head?_eq_getElem?]

theorem Feeding.nextValue {t : Tape R} {rest : List Draw} (h : Feeding t rest) (label : String)
    (bound : Nat) (hb : 0 < bound) :
    t.nextValue label bound hb = match rest with
      | [] => (t.diverge (.exhausted t.position label bound (t.recordedLength.getD 0))).map
          (·.improvise bound hb)
      | d :: _ =>
        if hd : d.label = label ∧ d.bound = bound then .ok (⟨d.value, hd.2 ▸ d.value_lt⟩, t)
        else (t.diverge (.mismatched t.position label bound d.label d.bound)).map
          (·.improvise bound hb) := by
  obtain ⟨recorded, hr, hg⟩ := h.get
  unfold Tape.nextValue recordedLength
  rw [hr]
  simp only [h.aligned, Option.isSome_none, Bool.false_eq_true, if_false]
  cases rest with
  | nil => rw [List.head?_nil] at hg; rw [hg]; rfl
  | cons d rest => rw [List.head?_cons] at hg; rw [hg]

/-- A matching request is answered from the recording, and consumes it. -/
theorem Feeding.draw {t : Tape R} {d : Draw} {rest : List Draw} (h : Feeding t (d :: rest)) :
    ∃ u, t.draw d.label d.bound = .ok (⟨d.value, d.value_lt⟩, u) ∧ Feeding u rest ∧
      u.draws = t.draws ++ [d] ∧ SameSource t u ∧ u.rng = t.rng := by
  refine ⟨t.push d, ?_, ⟨h.aligned, ?_⟩, rfl, SameSource.refl t, rfl⟩
  · unfold Tape.draw
    rw [dif_pos d.bound_pos, h.nextValue]
    simp only [and_self, dite_true]
    rfl
  · obtain ⟨consumed, hr, hl⟩ := h.recorded
    refine ⟨consumed ++ [d], ?_, ?_⟩
    · show t.recorded = _
      rw [hr, List.append_assoc, List.singleton_append]
    · rw [List.length_append, hl]
      rfl

theorem Feeding.replayExact {t : Tape R} {rest : List Draw} (h : Feeding t rest) :
    t.replayExact = true ↔ rest = [] := by
  obtain ⟨consumed, hr, hl⟩ := h.recorded
  simp [Tape.replayExact, recordedLength, h.aligned, hr, ← hl]

theorem Feeding.recordedLength {t : Tape R} {rest : List Draw} (h : Feeding t rest) :
    t.recordedLength = some (t.position + rest.length) := by
  obtain ⟨consumed, hr, hl⟩ := h.recorded
  rw [Tape.recordedLength, hr, Option.map_some, List.length_append, hl]

/-! ### Tapes that cannot refuse -/

/-- A generating tape, or one whose policy is to improvise. -/
def Willing (t : Tape R) : Prop := t.recorded = none ∨ t.policy = .fallback

theorem Willing.same {t u : Tape R} (h : Willing t) (hs : SameSource t u) : Willing u := by
  rcases h with h | h
  · exact .inl (hs.1.trans h)
  · exact .inr (hs.2.1.trans h)

theorem generate_willing (seed : Int) : Willing (generate (R := R) seed) := .inl rfl

theorem fallback_willing (ds : List Draw) (fallbackSeed : Int) (fallback : Fallback) :
    Willing (replay (R := R) ds .fallback fallbackSeed fallback) := .inr rfl

theorem Willing.nextValue {t : Tape R} (h : Willing t) (label : String) (bound : Nat)
    (hb : 0 < bound) : ∃ a, t.nextValue label bound hb = .ok a := by
  unfold Tape.nextValue
  split
  · exact ⟨_, rfl⟩
  next recorded hr =>
    have hp : t.policy = .fallback := h.resolve_left (by rw [hr]; exact Option.some_ne_none _)
    split
    · exact ⟨_, rfl⟩
    · split
      · exact ⟨_, by simp only [diverge, hp]; rfl⟩
      · split
        · exact ⟨_, rfl⟩
        · exact ⟨_, by simp only [diverge, hp]; rfl⟩

/-- A willing tape answers every valid request and stays willing. -/
theorem Willing.draw {t : Tape R} (h : Willing t) (label : String) {bound : Nat} (hb : 0 < bound) :
    ∃ v u, t.draw label bound = .ok (v, u) ∧ Willing u := by
  obtain ⟨a, ha⟩ := h.nextValue label bound hb
  have hd : t.draw label bound = .ok (a.1, a.2.push (Draw.answer label a.1)) := by
    unfold Tape.draw
    rw [dif_pos hb, ha]
    rfl
  exact ⟨_, _, hd, h.same (draw_ok hd).2⟩

/-- The only refusal of a willing tape is an invalid bound. -/
theorem Willing.error {t : Tape R} (h : Willing t) {label : String} {bound : Nat} {e : TapeError}
    (he : t.draw label bound = .error e) : bound = 0 ∧ e = .invalidBound 0 := by
  rcases Nat.eq_zero_or_pos bound with rfl | hb
  · exact ⟨rfl, (Except.error.inj he).symm⟩
  · obtain ⟨v, u, hd, _⟩ := h.draw label hb
    rw [hd] at he
    cases he

/-- A tape that answers 0 from here on. -/
structure Zeroing (t : Tape R) : Prop where
  rng : t.rng = .zero
  policy : t.policy = .fallback
  spent : ∃ recorded, t.recorded = some recorded ∧
    (t.misalignedAt.isSome = true ∨ recorded.length ≤ t.position)

theorem Zeroing.nextValue {t : Tape R} (h : Zeroing t) (label : String) (bound : Nat)
    (hb : 0 < bound) : ∃ u, t.nextValue label bound hb = .ok (⟨0, hb⟩, u) ∧ u.rng = .zero ∧
      u.policy = .fallback ∧ u.recorded = t.recorded ∧ u.misalignedAt.isSome = true := by
  obtain ⟨recorded, hr, hs⟩ := h.spent
  unfold Tape.nextValue
  rw [hr]
  by_cases hm : t.misalignedAt.isSome = true
  · refine ⟨{t with rng := .zero}, ?_, rfl, h.policy, hr, hm⟩
    simp only [hm, if_true, improvise, h.rng, Generator.randrange]
  · have hget : recorded[t.position]? = none := List.getElem?_eq_none (hs.resolve_left hm)
    refine ⟨{t with misalignedAt := some t.position, rng := .zero}, ?_, rfl, h.policy, hr, rfl⟩
    simp only [hm, if_false, hget, diverge, h.policy, Except.map, improvise, h.rng,
      Generator.randrange, Bool.false_eq_true]

theorem Zeroing.draw {t : Tape R} (h : Zeroing t) (label : String) {bound : Nat} (hb : 0 < bound) :
    ∃ u, t.draw label bound = .ok (⟨0, hb⟩, u) ∧ Zeroing u := by
  obtain ⟨w, hw, hrng, hpol, hrec, hmis⟩ := h.nextValue label bound hb
  obtain ⟨recorded, hr, _⟩ := h.spent
  refine ⟨w.push (Draw.answer label ⟨0, hb⟩), ?_, ⟨hrng, hpol, recorded, hrec.trans hr, .inl hmis⟩⟩
  unfold Tape.draw
  rw [dif_pos hb, hw]
  rfl

/-- A zero-filled fallback replay improvises once its recording is used up. -/
theorem Feeding.zeroing {t : Tape R} (h : Feeding t []) (hp : t.policy = .fallback)
    (hr : t.rng = .zero) : Zeroing t := by
  obtain ⟨consumed, hc, hl⟩ := h.recorded
  exact ⟨hr, hp, consumed ++ [], hc, .inr (by rw [List.append_nil]; exact Nat.le_of_eq hl)⟩

end Simloom.Tape
