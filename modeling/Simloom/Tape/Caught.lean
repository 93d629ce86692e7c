import Simloom.Tape.Session

/-! Requests whose errors are caught.

Draws happen inside user callbacks, and a callback's exception is routinely
caught: the caller goes on drawing from the tape that refused it. A strict tape
is left as it was by a refusal, so it answers exactly the requests that match
what its recording has next, and skips the others: `attempts_exact` says that the
recording is replayed in full exactly when its requests are among those made, in
order. A fallback tape remembers its divergence, so there they are all of them. -/
namespace Simloom

/-- The request that a recorded draw answers. -/
def Draw.request (d : Draw) : Request := ⟨d.label, d.bound, d.bound_pos⟩

namespace Tape
variable {R : RandomSource}

/-- A draw whose error, if any, is caught: the tape that refused it is as it was. -/
def attempt (t : Tape R) (q : Request) : Except TapeError Nat × Tape R :=
  match t.draw q.label q.bound with
  | .ok (v, u) => (.ok v, u)
  | .error e => (.error e, t)

/-- Any number of requests, one after the other. -/
def attempts (t : Tape R) : List Request → List (Except TapeError Nat) × Tape R
  | [] => ([], t)
  | q :: qs => ((t.attempt q).1 :: ((t.attempt q).2.attempts qs).1, ((t.attempt q).2.attempts qs).2)

/-- Some request raised. -/
def raised (answers : List (Except TapeError Nat)) : Bool :=
  answers.any fun a => match a with
    | .ok _ => false
    | .error _ => true

/-! ### One request -/

theorem request_eq {d : Draw} {q : Request} :
    d.request = q ↔ d.label = q.label ∧ d.bound = q.bound := by
  cases q
  simp [Draw.request]

/-- A matching request is answered, and consumes what it matches. -/
theorem attempt_match {t : Tape R} {d : Draw} {rest : List Draw} (h : Feeding t (d :: rest)) :
    (t.attempt d.request).1 = .ok d.value ∧ Feeding (t.attempt d.request).2 rest ∧
      SameSource t (t.attempt d.request).2 := by
  obtain ⟨u, hu, hfeed, -, hsame, -⟩ := h.draw
  simp only [attempt, Draw.request, hu]
  exact ⟨trivial, hfeed, hsame⟩

/-- Any other request is refused by a strict tape, and changes nothing. -/
theorem attempt_strict {t : Tape R} {rest : List Draw} (h : Feeding t rest)
    (hp : t.policy = .strict) (q : Request) (hq : rest.head?.map Draw.request ≠ some q) :
    (∃ e, (t.attempt q).1 = .error e) ∧ (t.attempt q).2 = t := by
  have hdraw : ∃ e, t.draw q.label q.bound = .error e := by
    unfold Tape.draw
    rw [dif_pos q.bound_pos, h.nextValue]
    cases rest with
    | nil => exact ⟨_, by simp only [diverge, hp]; rfl⟩
    | cons d rest =>
      have hd : ¬(d.label = q.label ∧ d.bound = q.bound) := fun hc =>
        hq (by rw [List.head?_cons, Option.map_some, request_eq.mpr hc])
      exact ⟨_, by simp only [diverge, hp, dif_neg hd]; rfl⟩
  obtain ⟨e, he⟩ := hdraw
  simp only [attempt, he]
  exact ⟨⟨e, rfl⟩, trivial⟩

/-! ### Strict runs -/

/-- The recording is used up exactly when what is left of it is among the requests. -/
theorem attempts_exact (qs : List Request) {t : Tape R} {rest : List Draw} (h : Feeding t rest)
    (hp : t.policy = .strict) :
    (t.attempts qs).2.replayExact = true ↔ List.Sublist (rest.map Draw.request) qs := by
  induction qs generalizing t rest with
  | nil => simp [attempts, h.replayExact]
  | cons q qs ih =>
    by_cases hq : rest.head?.map Draw.request = some q
    · cases rest with
      | nil => simp at hq
      | cons d rest =>
        obtain rfl : d.request = q := by simpa using hq
        obtain ⟨-, hfeed, hsame⟩ := attempt_match h
        rw [attempts, ih hfeed (hsame.2.1.trans hp), List.map_cons, List.cons_sublist_cons]
    · rw [attempts, (attempt_strict h hp q hq).2, ih h hp]
      refine ⟨fun hs => hs.cons q, fun hs => ?_⟩
      cases rest with
      | nil => simp
      | cons d rest =>
        rw [List.map_cons] at hs ⊢
        rcases List.sublist_cons_iff.mp hs with hs | ⟨r, hr, -⟩
        · exact hs
        · exact absurd (by rw [List.head?_cons, Option.map_some, (List.cons.inj hr).1]) hq

/-- No request is refused exactly when they are what the recording has next. -/
theorem attempts_raised (qs : List Request) {t : Tape R} {rest : List Draw} (h : Feeding t rest)
    (hp : t.policy = .strict) :
    raised (t.attempts qs).1 = false ↔ List.IsPrefix qs (rest.map Draw.request) := by
  induction qs generalizing t rest with
  | nil => simp [attempts, raised]
  | cons q qs ih =>
    by_cases hq : rest.head?.map Draw.request = some q
    · cases rest with
      | nil => simp at hq
      | cons d rest =>
        obtain rfl : d.request = q := by simpa using hq
        obtain ⟨hv, hfeed, hsame⟩ := attempt_match h
        have := ih hfeed (hsame.2.1.trans hp)
        rw [attempts, List.map_cons, List.cons_prefix_cons]
        simpa [raised, hv] using this
    · obtain ⟨e, he⟩ := (attempt_strict h hp q hq).1
      have hn : ¬List.IsPrefix (q :: qs) (rest.map Draw.request) := by
        intro hpre
        cases rest with
        | nil => simp at hpre
        | cons d rest => exact hq (by simpa using (List.cons_prefix_cons.mp hpre).1.symm)
      simp [attempts, raised, he, hn]

/-- What stickiness asks of a replay: it is exact at its end if and only if the requests
were the recording's, and not once one of them has raised. -/
def Sticky (recorded : List Draw) (qs : List Request) (after : List (Except TapeError Nat) × Tape R) :
    Prop :=
  (after.2.replayExact = true ↔ qs = recorded.map Draw.request) ∧
    (raised after.1 = true → after.2.replayExact = false)

/-- A strict tape is sticky exactly where the recording's requests are not found among
further ones: there it skips what it refuses and is exact all the same. -/
theorem sticky_iff (recorded : List Draw) (fallbackSeed : Int) (fallback : Fallback)
    (qs : List Request) :
    Sticky recorded qs ((replay (R := R) recorded .strict fallbackSeed fallback).attempts qs) ↔
      ¬(List.Sublist (recorded.map Draw.request) qs ∧ recorded.length < qs.length) := by
  have hfeed := replay_feeding (R := R) recorded .strict fallbackSeed fallback
  have hexact := attempts_exact qs hfeed rfl
  have hraised := attempts_raised qs hfeed rfl
  constructor
  · rintro ⟨hiff, -⟩ ⟨hsub, hlt⟩
    have heq : qs = recorded.map Draw.request := hiff.mp (hexact.mpr hsub)
    rw [heq, List.length_map] at hlt
    exact Nat.lt_irrefl _ hlt
  · intro hn
    have hall : List.Sublist (recorded.map Draw.request) qs → qs = recorded.map Draw.request := by
      intro hsub
      have hle : qs.length ≤ (recorded.map Draw.request).length := by
        rw [List.length_map]
        exact Nat.le_of_not_lt fun hlt => hn ⟨hsub, hlt⟩
      exact (hsub.eq_of_length_le hle).symm
    refine ⟨hexact.trans ⟨hall, fun h => h ▸ List.Sublist.refl _⟩, fun hr => ?_⟩
    rw [Bool.eq_false_iff]
    intro he
    rw [hraised.mpr (hall (hexact.mp he) ▸ List.prefix_refl _)] at hr
    cases hr

/-- A caller catches the refusal of `("b", 2)` and asks for what was recorded: one
request raised, and the replay is exact. -/
theorem refusal_forgotten :
    ¬Sticky [⟨"a", 1, 2, by decide⟩] [⟨"b", 2, by decide⟩, ⟨"a", 2, by decide⟩]
      ((replay (R := zeroSource) [⟨"a", 1, 2, by decide⟩] .strict 0 .rng).attempts
        [⟨"b", 2, by decide⟩, ⟨"a", 2, by decide⟩]) :=
  fun h => absurd (h.2 rfl) (by decide)

/-! ### Fallback runs -/

/-- A noted divergence stays noted. -/
theorem attempt_misaligned {t : Tape R} (h : t.misalignedAt.isSome = true) (q : Request) :
    (t.attempt q).2.misalignedAt.isSome = true := by
  have hnext : t.nextValue q.label q.bound q.bound_pos = .ok (t.improvise q.bound q.bound_pos) := by
    unfold nextValue
    split
    · rfl
    · rw [if_pos h]
  simp only [attempt, Tape.draw, dif_pos q.bound_pos, hnext]
  exact h

theorem attempts_misaligned (qs : List Request) {t : Tape R} (h : t.misalignedAt.isSome = true) :
    (t.attempts qs).2.replayExact = false := by
  induction qs generalizing t with
  | nil =>
    obtain ⟨i, hi⟩ := Option.isSome_iff_exists.mp h
    simp [attempts, replayExact, hi]
  | cons q qs ih => exact ih (attempt_misaligned h q)

/-- Any request but the next one makes a fallback tape note its divergence. -/
theorem attempt_fallback {t : Tape R} {rest : List Draw} (h : Feeding t rest)
    (hp : t.policy = .fallback) (q : Request) (hq : rest.head?.map Draw.request ≠ some q) :
    (t.attempt q).2.misalignedAt.isSome = true := by
  have hdraw : ∃ v u, t.draw q.label q.bound = .ok (v, u) ∧ u.misalignedAt.isSome = true := by
    unfold Tape.draw
    rw [dif_pos q.bound_pos, h.nextValue]
    cases rest with
    | nil => exact ⟨_, _, by simp only [diverge, hp]; rfl, rfl⟩
    | cons d rest =>
      have hd : ¬(d.label = q.label ∧ d.bound = q.bound) := fun hc =>
        hq (by rw [List.head?_cons, Option.map_some, request_eq.mpr hc])
      exact ⟨_, _, by simp only [diverge, hp, dif_neg hd]; rfl, rfl⟩
  obtain ⟨v, u, hu, hm⟩ := hdraw
  simp only [attempt, hu]
  exact hm

/-- Under `fallback` the replay is exact exactly for the requests of the recording. -/
theorem attempts_fallback (qs : List Request) {t : Tape R} {rest : List Draw} (h : Feeding t rest)
    (hp : t.policy = .fallback) :
    (t.attempts qs).2.replayExact = true ↔ qs = rest.map Draw.request := by
  induction qs generalizing t rest with
  | nil =>
    rw [attempts, h.replayExact]
    cases rest <;> simp
  | cons q qs ih =>
    by_cases hq : rest.head?.map Draw.request = some q
    · cases rest with
      | nil => simp at hq
      | cons d rest =>
        obtain rfl : d.request = q := by simpa using hq
        obtain ⟨-, hfeed, hsame⟩ := attempt_match h
        rw [attempts, ih hfeed (hsame.2.1.trans hp), List.map_cons, List.cons_inj_right]
    · rw [attempts, attempts_misaligned qs (attempt_fallback h hp q hq)]
      have hne : q :: qs ≠ rest.map Draw.request := by
        intro heq
        cases rest with
        | nil => simp at heq
        | cons d rest => exact hq (by simpa using (List.cons.inj heq).1.symm)
      simp [hne]

end Tape
end Simloom
