import Simloom.Tape.Document
import Simloom.Tape.Process

/-! Recording is faithful.

A client asks for draws as a function of the answers so far; its session ends
when it stops or when a draw raises. Whatever tape it talked to, the draws that
tape recorded are a tape on which the same client has the same session. -/
namespace Simloom

structure Request where
  label : String
  bound : Nat
  bound_pos : 0 < bound
deriving DecidableEq, Repr

/-- The next request, or the decision to stop, as a function of the answers so far. -/
abbrev Client := List Nat → Option Request

/-- The answers, or the first exception. -/
def answered : List Reply → Except TapeError (List Nat)
  | [] => .ok []
  | .ok v :: rest => (answered rest).map (v :: ·)
  | .error e :: _ => .error e

theorem answered_append_error {replies : List Reply} {answers : List Nat} (e : TapeError)
    (h : answered replies = .ok answers) : answered (replies ++ [.error e]) = .error e := by
  induction replies generalizing answers with
  | nil => rfl
  | cons r rest ih =>
    cases r with
    | error e' => cases h
    | ok w =>
      cases hr : answered rest with
      | error e' => rw [answered, hr] at h; cases h
      | ok tail => rw [List.cons_append, answered, ih hr]; rfl

namespace Client
variable {R : RandomSource}

/-- The session: the answers at the end, or the exception that ended it. -/
def session (c : Client) : Process (Except TapeError (List Nat)) := fun replies =>
  match answered replies with
  | .error e => .finish (.error e)
  | .ok answers =>
    match c answers with
    | none => .finish (.ok answers)
    | some q => .draw q.label q.bound

theorem session_error (c : Client) {replies : List Reply} {e : TapeError}
    (h : answered replies = .error e) : c.session replies = .finish (.error e) := by
  unfold session
  rw [h]

/-- While the session is under way every reply was an answer. -/
theorem session_draw {c : Client} {replies : List Reply} {label : String} {bound : Nat}
    (h : c.session replies = .draw label bound) : ∃ answers, answered replies = .ok answers := by
  cases ha : answered replies with
  | ok answers => exact ⟨answers, rfl⟩
  | error e => rw [c.session_error ha] at h; cases h

/-- A session that ends without an exception met none. -/
theorem session_undisturbed (c : Client) (fuel : Nat) (replies : List Reply) (t t' : Tape R)
    (answers : List Nat) (h : c.session.run fuel replies t = some (.ok answers, t')) :
    c.session.Undisturbed fuel replies t := by
  induction fuel generalizing replies t with
  | zero => unfold Process.Undisturbed; cases c.session replies <;> trivial
  | succ fuel ih =>
    unfold Process.Undisturbed
    cases hp : c.session replies with
    | finish a => trivial
    | draw label bound =>
      cases hd : t.draw label bound with
      | ok got =>
        rw [Process.run_draw_ok hp fuel hd] at h
        simpa only [hd] using ih _ got.2 h
      | error e =>
        -- the exception is the next move's result, so the session ended with it
        obtain ⟨soFar, hs⟩ := session_draw hp
        rw [Process.run_draw_error hp fuel hd,
          Process.run_finish (c.session_error (answered_append_error e hs))] at h
        cases h

end Client

/-- How a tape comes to be: from a seed, or as a replay under either policy. -/
inductive Mode where
  | generate (seed : Int)
  | replay (recorded : List Draw) (policy : MisalignmentPolicy) (fallbackSeed : Int)
      (fallback : Fallback)

def Mode.tape (R : RandomSource) : Mode → Tape R
  | .generate seed => Tape.generate seed
  | .replay recorded policy fallbackSeed fallback =>
    Tape.replay recorded policy fallbackSeed fallback

theorem Mode.tape_draws (R : RandomSource) (m : Mode) : (m.tape R).draws = [] := by
  cases m <;> rfl

/-- **Recording is faithful in every mode.** If a client's session ends without an
exception, the strict replay of the recorded draws gives it the same answers, is
consumed exactly and records the same draws; so does the tape read back from the
written document. -/
theorem session_recorded {R : RandomSource} (c : Client) (m : Mode) (fuel : Nat)
    (answers : List Nat) (t : Tape R)
    (h : c.session.run fuel [] (m.tape R) = some (.ok answers, t)) :
    (∃ u, c.session.run fuel [] (Tape.replayStrict t.draws : Tape R) = some (.ok answers, u) ∧
        u.replayExact = true ∧ u.draws = t.draws) ∧
      ∃ w, Tape.loads (R := R) t.dumps .strict 0 = .ok w ∧
        ∃ u, c.session.run fuel [] w = some (.ok answers, u) ∧
          u.replayExact = true ∧ u.draws = t.draws := by
  have hu := c.session_undisturbed fuel [] _ t answers h
  obtain ⟨ds, hds, _, hrep⟩ := Process.run_recorded _ fuel [] _ t _ h hu
  rw [m.tape_draws, List.nil_append] at hds
  have hf : (Tape.replayStrict t.draws : Tape R).Feeding (ds ++ []) := by
    rw [List.append_nil, ← hds]
    exact Tape.replay_feeding _ _ _ _
  obtain ⟨u, hrun, hfu, hdraws, _, _⟩ := hrep _ [] hf
  have hexact : u.replayExact = true := hfu.replayExact.mpr rfl
  have hsame : u.draws = t.draws := by rw [hdraws, hds]; rfl
  exact ⟨⟨u, hrun, hexact, hsame⟩, _, t.loads_dumps .strict 0, u, hrun, hexact, hsame⟩

/-- A client that rolls a die after heads. -/
def gambler : Client
  | [] => some ⟨"coin", 2, Nat.two_pos⟩
  | [1] => some ⟨"die", 6, by decide⟩
  | _ => none

/-- A recording of heads with no die to follow, replayed with zero refill. -/
def gamblerMode : Mode :=
  .replay [⟨"coin", 1, 2, Nat.one_lt_two⟩, ⟨"card", 3, 52, by decide⟩] .fallback 0 .zero

/-- What the gambler's session records: it diverges at its second draw. -/
def gamblerTape : Tape zeroSource :=
  ⟨.zero, none, some [⟨"coin", 1, 2, Nat.one_lt_two⟩, ⟨"card", 3, 52, by decide⟩], .fallback, 0, 2,
    some 1, [⟨"coin", 1, 2, Nat.one_lt_two⟩, ⟨"die", 0, 6, by decide⟩], rfl⟩

/-- A session that diverges half way is recorded faithfully. -/
theorem session_recorded_gambler :
    (∃ u, gambler.session.run 3 [] (Tape.replayStrict gamblerTape.draws : Tape zeroSource) =
          some (.ok [1, 0], u) ∧ u.replayExact = true ∧ u.draws = gamblerTape.draws) ∧
      ∃ w, Tape.loads (R := zeroSource) gamblerTape.dumps .strict 0 = .ok w ∧
        ∃ u, gambler.session.run 3 [] w = some (.ok [1, 0], u) ∧
          u.replayExact = true ∧ u.draws = gamblerTape.draws :=
  session_recorded gambler gamblerMode 3 [1, 0] gamblerTape (by rfl)

end Simloom
