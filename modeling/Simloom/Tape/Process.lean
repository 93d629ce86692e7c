import Simloom.Tape.Replay

/-! A program, seen from the tape.

Whatever a program is, the tape sees requests and the program sees replies: an
answer in range or an exception, which it may catch. A `Process` is the next
move as a function of the replies so far, so it may stop on some schedules and
run for ever on others; `run` follows it for at most `fuel` requests.

The one fact every re-execution rests on is `run_recorded`: a run that met no
misalignment is repeated, reply for reply, by any tape that is fed what it
recorded. -/
namespace Simloom

/-- What a draw returned or raised. -/
abbrev Reply := Except TapeError Nat

inductive Move (α : Type) where
  | finish (result : α)
  | draw (label : String) (bound : Nat)

abbrev Process (α : Type) := List Reply → Move α

namespace Process
variable {R : RandomSource} {α : Type}

/-- Follow the process against a tape; `none` when it asks more than `fuel` times.
A refused draw leaves the tape as it was. -/
def run (p : Process α) : Nat → List Reply → Tape R → Option (α × Tape R)
  | fuel, replies, t =>
    match p replies with
    | .finish a => some (a, t)
    | .draw label bound =>
      match fuel with
      | 0 => none
      | fuel + 1 =>
        match t.draw label bound with
        | .ok (v, u) => run p fuel (replies ++ [.ok v.val]) u
        | .error e => run p fuel (replies ++ [.error e]) t

theorem run_finish {p : Process α} {replies : List Reply} {a : α} (h : p replies = .finish a)
    (fuel : Nat) (t : Tape R) : p.run fuel replies t = some (a, t) := by
  unfold run
  rw [h]

theorem run_draw_zero {p : Process α} {replies : List Reply} {label : String} {bound : Nat}
    (h : p replies = .draw label bound) (t : Tape R) : p.run 0 replies t = none := by
  unfold run
  rw [h]

theorem run_draw_ok {p : Process α} {replies : List Reply} {label : String} {bound : Nat}
    (h : p replies = .draw label bound) (fuel : Nat) {t u : Tape R} {v : Fin bound}
    (hd : t.draw label bound = .ok (v, u)) :
    p.run (fuel + 1) replies t = p.run fuel (replies ++ [.ok v.val]) u := by
  rw [run, h]
  simp only [hd]

theorem run_draw_error {p : Process α} {replies : List Reply} {label : String} {bound : Nat}
    (h : p replies = .draw label bound) (fuel : Nat) {t : Tape R} {e : TapeError}
    (hd : t.draw label bound = .error e) :
    p.run (fuel + 1) replies t = p.run fuel (replies ++ [.error e]) t := by
  rw [run, h]
  simp only [hd]

/-- More fuel changes nothing. -/
theorem run_mono {p : Process α} {fuel : Nat} {replies : List Reply} {t : Tape R} {x : α × Tape R}
    (h : p.run fuel replies t = some x) (more : Nat) : p.run (fuel + more) replies t = some x := by
  induction fuel generalizing replies t with
  | zero =>
    cases hp : p replies with
    | finish b => rw [run_finish hp] at h ⊢; exact h
    | draw label bound => rw [run_draw_zero hp] at h; cases h
  | succ fuel ih =>
    rw [Nat.add_right_comm]
    cases hp : p replies with
    | finish b => rw [run_finish hp] at h ⊢; exact h
    | draw label bound =>
      cases hd : t.draw label bound with
      | ok a =>
        obtain ⟨v, u⟩ := a
        rw [run_draw_ok hp _ hd] at h ⊢
        exact ih h
      | error e =>
        rw [run_draw_error hp _ hd] at h ⊢
        exact ih h

/-- A run that ends, move by move: it finishes, is answered, or is refused. -/
@[elab_as_elim]
theorem run_induct {p : Process α} {a : α} {t' : Tape R}
    {motive : Nat → List Reply → Tape R → Prop}
    (finish : ∀ fuel replies, p replies = .finish a → motive fuel replies t')
    (answer : ∀ fuel replies t label bound v u, p replies = .draw label bound →
      t.draw label bound = .ok (v, u) → motive fuel (replies ++ [.ok v.val]) u →
      motive (fuel + 1) replies t)
    (refuse : ∀ fuel replies t label bound e, p replies = .draw label bound →
      t.draw label bound = .error e → motive fuel (replies ++ [.error e]) t →
      motive (fuel + 1) replies t)
    {fuel : Nat} {replies : List Reply} {t : Tape R}
    (h : p.run fuel replies t = some (a, t')) : motive fuel replies t := by
  have hfinish {fuel replies t b} (hp : p replies = .finish b)
      (h : p.run fuel replies t = some (a, t')) : motive fuel replies t := by
    rw [run_finish hp] at h
    obtain ⟨rfl, rfl⟩ := Prod.mk.inj (Option.some.inj h)
    exact finish fuel replies hp
  induction fuel generalizing replies t with
  | zero =>
    cases hp : p replies with
    | finish b => exact hfinish hp h
    | draw label bound => rw [run_draw_zero hp] at h; cases h
  | succ fuel ih =>
    cases hp : p replies with
    | finish b => exact hfinish hp h
    | draw label bound =>
      cases hd : t.draw label bound with
      | ok answered =>
        obtain ⟨v, u⟩ := answered
        rw [run_draw_ok hp fuel hd] at h
        exact answer fuel replies t label bound v u hp hd (ih h)
      | error e =>
        rw [run_draw_error hp fuel hd] at h
        exact refuse fuel replies t label bound e hp hd (ih h)

/-- Every request of the process has a label that satisfies `P`. -/
def Requests (p : Process α) (P : String → Prop) : Prop :=
  ∀ replies label bound, p replies = .draw label bound → P label

theorem requests_any (p : Process α) : p.Requests fun _ => True := fun _ _ _ _ => trivial

/-- A run only adds to what is recorded, under the labels it requests, and ends where
the process finishes. -/
theorem run_records {p : Process α} {P : String → Prop} (hp : p.Requests P) {fuel : Nat}
    {replies : List Reply} {t t' : Tape R} {a : α} (h : p.run fuel replies t = some (a, t')) :
    (∃ ds, t'.draws = t.draws ++ ds ∧ ∀ d ∈ ds, P d.label) ∧ ∃ more, p more = .finish a := by
  refine run_induct (motive := fun _ _ t => (∃ ds, t'.draws = t.draws ++ ds ∧
    ∀ d ∈ ds, P d.label) ∧ ∃ more, p more = .finish a) ?_ ?_ ?_ h
  · intro _ replies hf
    exact ⟨⟨[], (List.append_nil _).symm, fun d hd => absurd hd List.not_mem_nil⟩, replies, hf⟩
  · rintro _ replies t label bound v u hf hd ⟨⟨ds, hds, hall⟩, hmore⟩
    refine ⟨⟨Draw.answer label v :: ds, ?_, fun d hm => ?_⟩, hmore⟩
    · rw [hds, (Tape.draw_ok hd).1, List.append_assoc, List.singleton_append]
    · rcases List.mem_cons.mp hm with rfl | hm
      · exact hp replies label bound hf
      · exact hall d hm
  · intro _ _ _ _ _ _ _ _ ih
    exact ih

/-- No draw of the run is refused for misalignment. -/
def Undisturbed (p : Process α) : Nat → List Reply → Tape R → Prop
  | fuel, replies, t =>
    match p replies with
    | .finish _ => True
    | .draw label bound =>
      match fuel with
      | 0 => True
      | fuel + 1 =>
        match t.draw label bound with
        | .ok (v, u) => Undisturbed p fuel (replies ++ [.ok v.val]) u
        | .error e => e.isMisalignment = false ∧ Undisturbed p fuel (replies ++ [.error e]) t

theorem undisturbed_ok {p : Process α} {replies : List Reply} {label : String} {bound : Nat}
    (h : p replies = .draw label bound) {fuel : Nat} {t u : Tape R} {v : Fin bound}
    (hd : t.draw label bound = .ok (v, u)) (hu : p.Undisturbed (fuel + 1) replies t) :
    p.Undisturbed fuel (replies ++ [.ok v.val]) u := by
  unfold Undisturbed at hu
  simpa only [h, hd] using hu

theorem undisturbed_error {p : Process α} {replies : List Reply} {label : String} {bound : Nat}
    (h : p replies = .draw label bound) {fuel : Nat} {t : Tape R} {e : TapeError}
    (hd : t.draw label bound = .error e) (hu : p.Undisturbed (fuel + 1) replies t) :
    e.isMisalignment = false ∧ p.Undisturbed fuel (replies ++ [.error e]) t := by
  unfold Undisturbed at hu
  simpa only [h, hd] using hu

/-- A tape that cannot refuse disturbs nothing. -/
theorem willing_undisturbed (p : Process α) (fuel : Nat) (replies : List Reply) (t : Tape R)
    (h : t.Willing) : p.Undisturbed fuel replies t := by
  induction fuel generalizing replies t with
  | zero => unfold Undisturbed; cases p replies <;> trivial
  | succ fuel ih =>
    unfold Undisturbed
    cases p replies with
    | finish a => trivial
    | draw label bound =>
      cases hd : t.draw label bound with
      | ok answered => simpa only [hd] using ih _ answered.2 (h.same (Tape.draw_ok hd).2)
      | error e =>
        obtain ⟨_, rfl⟩ := h.error hd
        simp only [hd]
        exact ⟨rfl, ih _ t h⟩

/-! ### Repeating a run -/

/-- Fed `ds`, the process ends in `a`, consumes them and records them again. -/
def Repeats (p : Process α) (R : RandomSource) (fuel : Nat) (replies : List Reply) (a : α)
    (ds : List Draw) : Prop :=
  ∀ (u : Tape R) (rest : List Draw), u.Feeding (ds ++ rest) →
    ∃ u', p.run fuel replies u = some (a, u') ∧ u'.Feeding rest ∧ u'.draws = u.draws ++ ds ∧
      u.SameSource u' ∧ u'.rng = u.rng

theorem repeats_finish {p : Process α} {replies : List Reply} {a : α} (h : p replies = .finish a)
    (fuel : Nat) : p.Repeats R fuel replies a [] := by
  intro u rest hf
  exact ⟨u, run_finish h fuel u, hf, (List.append_nil _).symm, Tape.SameSource.refl u, rfl⟩

/-- A recorded draw matches the request that made it. -/
theorem repeats_draw {p : Process α} {replies : List Reply} {label : String} {bound : Nat}
    (h : p replies = .draw label bound) {fuel : Nat} {v : Fin bound} {a : α} {ds : List Draw}
    (hr : p.Repeats R fuel (replies ++ [.ok v.val]) a ds) :
    p.Repeats R (fuel + 1) replies a (Draw.answer label v :: ds) := by
  intro u rest hf
  obtain ⟨u₁, hu₁, hf₁, hd₁, hs₁, hg₁⟩ := Tape.Feeding.draw hf
  obtain ⟨u₂, hr₂, hf₂, hd₂, hs₂, hg₂⟩ := hr u₁ rest hf₁
  refine ⟨u₂, ?_, hf₂, ?_, hs₁.trans hs₂, hg₂.trans hg₁⟩
  · rw [run_draw_ok h fuel hu₁]
    exact hr₂
  · rw [hd₂, hd₁, List.append_assoc, List.singleton_append]

theorem repeats_invalid {p : Process α} {replies : List Reply} {label : String}
    (h : p replies = .draw label 0) {fuel : Nat} {a : α} {ds : List Draw}
    (hr : p.Repeats R fuel (replies ++ [.error (.invalidBound 0)]) a ds) :
    p.Repeats R (fuel + 1) replies a ds := by
  intro u rest hf
  rw [run_draw_error h fuel (u.draw_zero label)]
  exact hr u rest hf

/-- **A run that met no misalignment is repeated by any tape fed its recording**:
same result, the recording consumed draw for draw, the same draws recorded again. -/
theorem run_recorded (p : Process α) (fuel : Nat) (replies : List Reply) (t t' : Tape R) (a : α)
    (h : p.run fuel replies t = some (a, t')) (hu : p.Undisturbed fuel replies t) :
    ∃ ds, t'.draws = t.draws ++ ds ∧ t.SameSource t' ∧ p.Repeats R fuel replies a ds := by
  refine run_induct (motive := fun fuel replies t => p.Undisturbed fuel replies t →
    ∃ ds, t'.draws = t.draws ++ ds ∧ t.SameSource t' ∧ p.Repeats R fuel replies a ds) ?_ ?_ ?_ h hu
  · intro fuel replies hp _
    exact ⟨[], (List.append_nil _).symm, Tape.SameSource.refl _, repeats_finish hp fuel⟩
  · intro fuel replies t label bound v w hp hd ih hu
    obtain ⟨hwd, hws⟩ := Tape.draw_ok hd
    obtain ⟨ds, hds, hsame, hrep⟩ := ih (undisturbed_ok hp hd hu)
    refine ⟨Draw.answer label v :: ds, ?_, hws.trans hsame, repeats_draw hp hrep⟩
    rw [hds, hwd, List.append_assoc, List.singleton_append]
  · intro fuel replies t label bound e hp hd ih hu
    obtain ⟨hm, hu'⟩ := undisturbed_error hp hd hu
    obtain ⟨rfl, rfl⟩ := (Tape.draw_error hd).resolve_right (by rw [hm]; decide)
    obtain ⟨ds, hds, hsame, hrep⟩ := ih hu'
    exact ⟨ds, hds, hsame, repeats_invalid hp hrep⟩

end Process

end Simloom
