import Simloom.Run.Pct
import Simloom.Tape.Replay

/-! PCT with priorities drawn up front.

`_PCT` draws a priority when its entity first competes. `Eager` is the strategy as it is meant:
every entity has a rank from the start, the highest ready one runs, and change points demote. A
state of the one, with ranks for the entities it has not drawn yet, is a state of the other
(`eager`), and a pick commutes with that. So every run of PCT is an eager one for some ranks, and
for all ranks and change points there is a tape on which PCT makes the eager run. -/
namespace Simloom
open Theory (Dict)

/-! ### Ranks from the start -/

structure Eager where
  priority : Int → Priority
  floor : Int
  steps : Nat
  changePoints : List Nat

namespace Eager

def start (rank : Int → Nat) (changePoints : List Nat) : Eager :=
  ⟨fun e => toLex ((rank e : Int), -e), -1, 0, changePoints⟩

/-- The first handle of the highest entity. -/
def index (s : Eager) (ready : List Int) : Nat := Pct.choose (ready.map s.priority)

/-- At a change point the one that runs gets a priority below all others. -/
def settle (s : Eager) (chosen : Int) : Eager :=
  if s.steps ∈ s.changePoints then
    {s with
      priority := Function.update s.priority chosen (toLex (s.floor, -chosen))
      floor := s.floor - 1
      steps := s.steps + 1}
  else {s with steps := s.steps + 1}

def next (s : Eager) (ready : List Int) : Eager := s.settle (ready.getD (s.index ready) (-1))

def picks (s : Eager) : List (List Int) → List Nat
  | [] => []
  | ready :: rest => s.index ready :: (s.next ready).picks rest

end Eager

namespace Pct
variable {R : RandomSource} {rank : Int → Nat}

/-- The priorities so far, and ranks for the rest. -/
def eager (s : Pct) (rank : Int → Nat) : Eager where
  priority e := (s.priorities.get? e).getD (toLex ((rank e : Int), -e))
  floor := s.floor
  steps := s.steps
  changePoints := s.changePoints

theorem eager_start (rank : Int → Nat) (changePoints : List Nat) :
    (start changePoints).eager rank = .start rank changePoints := rfl

theorem settle_eager (s : Pct) (rank : Int → Nat) (chosen : Int) :
    (s.settle chosen).eager rank = (s.eager rank).settle chosen := by
  unfold settle Eager.settle
  by_cases hchanges : s.steps ∈ s.changePoints
  · have hpriority : ∀ e, ((s.priorities.set chosen (toLex (s.floor, -chosen))).get? e).getD
        (toLex ((rank e : Int), -e)) =
        Function.update (s.eager rank).priority chosen (toLex (s.floor, -chosen)) e := by
      intro e
      rw [Dict.get?_set]
      by_cases he : e = chosen
      · rw [if_pos he, he, Function.update_self]
        rfl
      · rw [if_neg he, Function.update_of_ne he]
        rfl
    rw [if_pos (show (s.eager rank).steps ∈ (s.eager rank).changePoints from hchanges),
      if_pos (show s.changes = true from decide_eq_true hchanges)]
    exact congrArg (fun p => Eager.mk p (s.floor - 1) (s.steps + 1) s.changePoints) (funext hpriority)
  · rw [if_neg (show (s.eager rank).steps ∉ (s.eager rank).changePoints from hchanges),
      if_neg (show ¬s.changes = true from fun h => hchanges (of_decide_eq_true h))]
    rfl

theorem choose_singleton (p : Priority) : choose [p] = 0 := by
  obtain ⟨q, hq, _⟩ := choose_spec (List.cons_ne_nil p [])
  have hlt : choose [p] < [p].length := (List.getElem?_eq_some_iff.mp hq).1
  exact Nat.lt_one_iff.mp hlt

/-! ### What a pick draws -/

/-- A priority that is new was drawn. -/
def Draws (s s' : Pct) : Prop :=
  ∀ e p, s.priorities.get? e = none → s'.priorities.get? e = some p →
    ∃ v < 1024, p = toLex (((v : Nat) : Int), -e)

theorem priority_draws (s : Pct) (t : Tape R) (entity : Int) :
    Draws s (s.priority t entity).2.1 := by
  have hsame : Draws s s := fun e p hnone hsome => by
    rw [hnone] at hsome
    cases hsome
  unfold priority
  split
  · exact hsame
  · split
    · exact hsame
    · next v u _ =>
      intro e p hnone hsome
      rw [Dict.get?_set] at hsome
      split at hsome
      · next he => exact ⟨v.val, v.isLt, he ▸ (Option.some.inj hsome).symm⟩
      · rw [hnone] at hsome
        cases hsome

theorem Draws.trans {a b c : Pct} (h : Draws a b) (hgrows : Grows b c) (h' : Draws b c) :
    Draws a c := by
  intro e p hnone hsome
  cases hb : b.priorities.get? e with
  | none => exact h' e p hb hsome
  | some q =>
    obtain rfl := Option.some.inj ((hgrows.kept e q hb).symm.trans hsome)
    exact h e q hnone hb

theorem rank_draws (s : Pct) (t : Tape R) (entities : List Int) :
    Draws s (s.rank t entities).2.1 := by
  induction entities generalizing s t with
  | nil =>
    intro e p hnone hsome
    rw [show (s.rank t []).2.1 = s from rfl, hnone] at hsome
    cases hsome
  | cons entity rest ih =>
    have hfirst := s.priority_draws t entity
    unfold rank
    rcases hp : s.priority t entity with ⟨e | p, s₁, t₁⟩
    · rw [hp] at hfirst
      exact hfirst
    · rw [hp] at hfirst
      have hrest := hfirst.trans (s₁.rank_grows t₁ rest).1 (ih s₁ t₁)
      dsimp only
      rcases hr : s₁.rank t₁ rest with ⟨e | ps, s₂, t₂⟩ <;> rw [hr] at hrest <;> exact hrest

theorem compete_draws (s : Pct) (t : Tape R) (entities : List Int) :
    Draws s (s.compete t entities).2.1 := by
  unfold compete
  split
  · intro e p hnone hsome
    rw [hnone] at hsome
    cases hsome
  · have hrank := s.rank_draws t entities
    rcases hr : s.rank t entities with ⟨e | ps, s₁, t₁⟩ <;> rw [hr] at hrank <;> exact hrank

/-- The ranks that were drawn, before others. -/
def drawn (s s' : Pct) (rank : Int → Nat) (e : Int) : Nat :=
  match s.priorities.get? e, s'.priorities.get? e with
  | none, some p => (ofLex p).1.toNat
  | _, _ => rank e

theorem drawn_lt {s s' : Pct} (h : Draws s s') (hrank : ∀ e, rank e < 1024) (e : Int) :
    drawn s s' rank e < 1024 := by
  unfold drawn
  split
  · next p hnone hsome =>
    obtain ⟨v, hv, rfl⟩ := h e p hnone hsome
    simpa using hv
  · exact hrank e

/-- Drawing up front what is drawn now changes nothing. -/
theorem drawn_eager {s s' : Pct} (h : Draws s s') (hgrows : Grows s s') :
    s.eager (drawn s s' rank) = s'.eager rank := by
  have hpriority : (s.eager (drawn s s' rank)).priority = (s'.eager rank).priority := by
    funext e
    unfold eager drawn
    dsimp only
    cases hs : s.priorities.get? e with
    | some p => rw [hgrows.kept e p hs]
    | none =>
      cases hs' : s'.priorities.get? e with
      | none => rfl
      | some p =>
        obtain ⟨v, _, rfl⟩ := h e p hs hs'
        simp
  unfold eager at hpriority ⊢
  rw [hgrows.floor, hgrows.steps, hgrows.changePoints]
  exact congrArg (fun p => Eager.mk p s.floor s.steps s.changePoints) hpriority

/-! ### Every run is an eager one -/

theorem map_eager {s : Pct} {entities : List Int} {ps : List Priority}
    (h : List.Forall₂ (fun e p => s.priorities.get? e = some p) entities ps) :
    entities.map (s.eager rank).priority = ps := by
  induction h with
  | nil => rfl
  | @cons e p es ps hget _ ih =>
    rw [List.map_cons, ih]
    simp [eager, hget]

/-- What a pick that is answered returns. -/
theorem compete_index (rank : Int → Nat) {s : Pct} {t : Tape R} {entities : List Int}
    {index : Nat}
    (h : (s.compete t entities).1 = .ok index) :
    index = ((s.compete t entities).2.1.eager rank).index entities := by
  unfold compete at h ⊢
  by_cases hone : entities.length = 1
  · obtain ⟨e, rfl⟩ := List.length_eq_one_iff.mp hone
    rw [if_pos hone] at h
    rw [← Except.ok.inj h]
    exact (choose_singleton _).symm
  · rw [if_neg hone] at h ⊢
    have hfound := (s.rank_grows t entities).2
    rcases hr : s.rank t entities with ⟨e | ps, s₁, t₁⟩
    · rw [hr] at h
      cases h
    · rw [hr] at h hfound
      rw [← Except.ok.inj h, Eager.index, map_eager (hfound ps rfl)]

/-- The picks that were answered. -/
def answered (ps : List Pick) : List Pick := ps.filter fun p => p.index.isOk

theorem picks_eager (s : Pct) (turns : List (Turn R)) :
    ∃ rank : Int → Nat, (∀ e, rank e < 1024) ∧
    (answered (s.picks turns)).map Pick.index =
      ((s.eager rank).picks ((answered (s.picks turns)).map Pick.ready)).map .ok := by
  induction turns generalizing s with
  | nil => exact ⟨fun _ => 0, fun _ => Nat.zero_lt_succ _, rfl⟩
  | cons turn rest ih =>
    obtain ⟨rank, hrank, hrest⟩ := ih (s.next turn)
    have hdraws := s.compete_draws turn.tape turn.entities
    have hgrows := s.compete_grows turn.tape turn.entities
    have hindex := pick_index s turn.tape turn.entities
    refine ⟨drawn s (s.compete turn.tape turn.entities).2.1 rank, drawn_lt hdraws hrank, ?_⟩
    rw [drawn_eager hdraws hgrows, picks]
    cases hc : (s.compete turn.tape turn.entities).1 with
    | error e =>
      have hnext : s.next turn = (s.compete turn.tape turn.entities).2.1 := by
        rcases hcompete : s.compete turn.tape turn.entities with ⟨e' | i, s₁, t₁⟩
        · simp [next, pick, hcompete]
        · rw [hcompete] at hc
          cases hc
      have hskip : answered (s.note turn :: (s.next turn).picks rest) =
          answered ((s.next turn).picks rest) := by
        simp [answered, note, hindex, hc, Except.isOk, Except.toBool]
      rw [hskip, ← hnext, hrest]
    | ok index =>
      have hnext : s.next turn =
          (s.compete turn.tape turn.entities).2.1.settle (turn.entities.getD index (-1)) := by
        rcases hcompete : s.compete turn.tape turn.entities with ⟨e' | i, s₁, t₁⟩
        · rw [hcompete] at hc
          cases hc
        · rw [hcompete] at hc
          obtain rfl := Except.ok.inj hc
          simp [next, pick, hcompete]
      have hkeep : answered (s.note turn :: (s.next turn).picks rest) =
          s.note turn :: answered ((s.next turn).picks rest) := by
        simp [answered, note, hindex, hc, Except.isOk, Except.toBool]
      have hfirst := compete_index rank hc
      have heager : (s.next turn).eager rank =
          ((s.compete turn.tape turn.entities).2.1.eager rank).next turn.entities := by
        rw [hnext, settle_eager, Eager.next, ← hfirst]
      rw [hkeep, List.map_cons, List.map_cons, hrest, heager, Eager.picks, List.map_cons]
      congr 1
      rw [show (s.note turn).ready = turn.entities from rfl, ← hfirst, ← hc]
      exact hindex

/-! ### Every eager run is one of PCT -/

/-- What a run asks of its tape: a pick among ready entities, or a draw of the program's own with
the answer that it is to get. -/
inductive Demand where
  | pick (ready : List Int)
  | draw (answer : Draw)

/-- PCT and a program that draw from one tape. -/
def serve (s : Pct) (t : Tape R) : List Demand → Except TapeError (List Nat × Tape R)
  | [] => .ok ([], t)
  | .pick ready :: rest =>
    match s.pick t ready with
    | (.error e, _, _) => .error e
    | (.ok index, s, t) =>
      match serve s t rest with
      | .error e => .error e
      | .ok (answers, t) => .ok (index :: answers, t)
  | .draw answer :: rest =>
    match t.draw answer.label answer.bound with
    | .error e => .error e
    | .ok (v, t) =>
      match serve s t rest with
      | .error e => .error e
      | .ok (answers, t) => .ok (v.val :: answers, t)

end Pct

/-- What is to be answered. -/
def Eager.serve (s : Eager) : List Pct.Demand → List Nat
  | [] => []
  | .pick ready :: rest => s.index ready :: (s.next ready).serve rest
  | .draw answer :: rest => answer.value :: s.serve rest

namespace Pct
variable {R : RandomSource} {rank : Int → Nat}

theorem priority_feeding (hrank : ∀ e, rank e < 1024) (s : Pct) (entity : Int) :
    ∃ ds s', s'.eager rank = s.eager rank ∧ ∀ (t : Tape R) later, t.Feeding (ds ++ later) →
      ∃ u, s.priority t entity = (.ok ((s.eager rank).priority entity), s', u) ∧
        u.Feeding later := by
  cases hget : s.priorities.get? entity with
  | some p =>
    refine ⟨[], s, rfl, fun t later hfeeding => ⟨t, ?_, hfeeding⟩⟩
    simp [priority, eager, hget]
  | none =>
    let d : Draw := ⟨"pct.prio", rank entity, 1024, hrank entity⟩
    let s' : Pct :=
      {s with priorities := s.priorities.set entity (toLex ((rank entity : Int), -entity))}
    refine ⟨[d], s', ?_, fun t later hfeeding => ?_⟩
    · have hpriority : (s'.eager rank).priority = (s.eager rank).priority := by
        funext e
        show ((s.priorities.set entity _).get? e).getD _ = (s.priorities.get? e).getD _
        rw [Dict.get?_set]
        split
        · next he => rw [he, hget]; rfl
        · rfl
      exact congrArg (fun p => Eager.mk p s.floor s.steps s.changePoints) hpriority
    · obtain ⟨u, hdraw, hrest, _⟩ := hfeeding.draw
      replace hdraw : t.draw "pct.prio" 1024 = .ok (⟨rank entity, hrank entity⟩, u) := hdraw
      refine ⟨u, ?_, hrest⟩
      unfold priority
      rw [hget, hdraw]
      simp [eager, hget, s']

theorem rank_feeding (hrank : ∀ e, rank e < 1024) (s : Pct) (entities : List Int) :
    ∃ ds s', s'.eager rank = s.eager rank ∧ ∀ (t : Tape R) later, t.Feeding (ds ++ later) →
      ∃ u, s.rank t entities = (.ok (entities.map (s.eager rank).priority), s', u) ∧
        u.Feeding later := by
  induction entities generalizing s with
  | nil => exact ⟨[], s, rfl, fun t later hfeeding => ⟨t, rfl, hfeeding⟩⟩
  | cons entity rest ih =>
    obtain ⟨ds, s₁, hsame, hfirst⟩ := priority_feeding (R := R) hrank s entity
    obtain ⟨ds', s₂, hsame', hrest⟩ := ih s₁
    refine ⟨ds ++ ds', s₂, hsame'.trans hsame, fun t later hfeeding => ?_⟩
    rw [List.append_assoc] at hfeeding
    obtain ⟨t₁, hpriority, hfeeding₁⟩ := hfirst t _ hfeeding
    obtain ⟨t₂, hranked, hfeeding₂⟩ := hrest t₁ later hfeeding₁
    refine ⟨t₂, ?_, hfeeding₂⟩
    unfold Pct.rank
    rw [hpriority]
    dsimp only
    rw [hranked, hsame]
    rfl

/-- A pick on a tape that has the ranks it asks for. -/
theorem pick_feeding (hrank : ∀ e, rank e < 1024) (s : Pct) (ready : List Int) :
    ∃ ds s', s'.eager rank = (s.eager rank).next ready ∧
      ∀ (t : Tape R) later, t.Feeding (ds ++ later) →
      ∃ u, s.pick t ready = (.ok ((s.eager rank).index ready), s', u) ∧ u.Feeding later := by
  obtain ⟨ds, s₁, hsame, hcompete⟩ : ∃ ds s₁, s₁.eager rank = s.eager rank ∧
      ∀ (t : Tape R) later, t.Feeding (ds ++ later) →
        ∃ u, s.compete t ready = (.ok ((s.eager rank).index ready), s₁, u) ∧
          u.Feeding later := by
    by_cases hone : ready.length = 1
    · obtain ⟨e, rfl⟩ := List.length_eq_one_iff.mp hone
      refine ⟨[], s, rfl, fun t later hfeeding => ⟨t, ?_, hfeeding⟩⟩
      rw [compete, if_pos hone, Eager.index, List.map_singleton, choose_singleton]
    · obtain ⟨ds, s₁, hsame, hranked⟩ := rank_feeding (R := R) hrank s ready
      refine ⟨ds, s₁, hsame, fun t later hfeeding => ?_⟩
      obtain ⟨u, hu, hlater⟩ := hranked t later hfeeding
      refine ⟨u, ?_, hlater⟩
      rw [compete, if_neg hone, hu]
      rfl
  refine ⟨ds, s₁.settle (ready.getD ((s.eager rank).index ready) (-1)), ?_,
    fun t later hfeeding => ?_⟩
  · rw [settle_eager, hsame]
    rfl
  · obtain ⟨u, hu, hlater⟩ := hcompete t later hfeeding
    refine ⟨u, ?_, hlater⟩
    rw [pick, hu]

theorem serve_feeding (hrank : ∀ e, rank e < 1024) (s : Pct) (demands : List Demand) :
    ∃ ds, ∀ (t : Tape R) later, t.Feeding (ds ++ later) →
      ∃ u, s.serve t demands = .ok ((s.eager rank).serve demands, u) ∧ u.Feeding later := by
  induction demands generalizing s with
  | nil => exact ⟨[], fun t later hfeeding => ⟨t, rfl, hfeeding⟩⟩
  | cons demand rest ih =>
    cases demand with
    | pick ready =>
      obtain ⟨ds, s₁, hsame, hfirst⟩ := pick_feeding (R := R) hrank s ready
      obtain ⟨ds', hrest⟩ := ih s₁
      refine ⟨ds ++ ds', fun t later hfeeding => ?_⟩
      rw [List.append_assoc] at hfeeding
      obtain ⟨t₁, hpick, hfeeding₁⟩ := hfirst t _ hfeeding
      obtain ⟨t₂, hserve, hfeeding₂⟩ := hrest t₁ later hfeeding₁
      refine ⟨t₂, ?_, hfeeding₂⟩
      unfold serve
      rw [hpick]
      dsimp only
      rw [hserve, hsame]
      rfl
    | draw answer =>
      obtain ⟨ds, hrest⟩ := ih s
      refine ⟨answer :: ds, fun t later hfeeding => ?_⟩
      obtain ⟨t₁, hdraw, hfeeding₁, _⟩ := hfeeding.draw
      obtain ⟨t₂, hserve, hfeeding₂⟩ := hrest t₁ later hfeeding₁
      refine ⟨t₂, ?_, hfeeding₂⟩
      unfold serve
      rw [hdraw]
      dsimp only
      rw [hserve]
      rfl

/-- The change points are the first draws. -/
theorem repeats_changePoints {horizon : Int} {points : List Nat}
    (hpoints : ∀ p ∈ points, (p : Int) < horizon) :
    ∃ ds, Taped.Repeats (R := R) (Simloom.changePoints horizon points.length) points ds := by
  induction points with
  | nil => exact ⟨[], Taped.repeats_pure []⟩
  | cons point rest ih =>
    obtain ⟨hpoint, hlater⟩ := List.forall_mem_cons.mp hpoints
    obtain ⟨ds, hrest⟩ := ih hlater
    obtain ⟨bound, rfl⟩ : ∃ bound : Nat, horizon = bound := ⟨horizon.toNat, by omega⟩
    have hfirst : Taped.Repeats (R := R) (changePoint bound) point
        [⟨"pct.change", point, bound, by omega⟩] := by
      intro u later hfeeding
      obtain ⟨u', hdraw, hlater, hdraws, hsame, _⟩ := hfeeding.draw
      refine ⟨u', ?_, hlater, hdraws, hsame⟩
      show Taped.draw "pct.change" bound u = _
      unfold Taped.draw
      rw [hdraw]
    have hpure := Taped.repeats_pure (R := R) (point :: rest)
    exact ⟨_, hfirst.bind (hrest.bind hpure)⟩

/-- **PCT is the strategy with all priorities drawn up front.** Every run of picks, whatever the
tapes answer and the rest of the program draws, is the eager run for some ranks of the entities. For
all ranks, all change points within the horizon and all that a run asks of its tape, there is a
recording whose strict replay, from the construction of the strategy on, makes the eager run and
uses it up. -/
theorem pct_eager (R : RandomSource) (points : List Nat) :
    (∀ turns : List (Turn R), ∃ rank : Int → Nat, (∀ e, rank e < 1024) ∧
      (answered ((start points).picks turns)).map Pick.index =
        ((Eager.start rank points).picks
          ((answered ((start points).picks turns)).map Pick.ready)).map .ok) ∧
    ∀ (rank : Int → Nat) (depth horizon : Int), (∀ e, rank e < 1024) →
      points.length = (depth - 1).toNat → (∀ p ∈ points, (p : Int) < horizon) →
      ∀ demands, ∃ ds, ∃ t u : Tape R,
        scheduler (.pct depth horizon) (Tape.replayStrict ds : Tape R) = .ok (.pct points, t) ∧
        (start points).serve t demands = .ok ((Eager.start rank points).serve demands, u) ∧
        u.replayExact = true := by
  refine ⟨fun turns => picks_eager (start points) turns, ?_⟩
  intro rank depth horizon hrank hlength hpoints demands
  obtain ⟨ds, hchanges⟩ := repeats_changePoints (R := R) hpoints
  obtain ⟨ds', hserve⟩ := serve_feeding (R := R) hrank (start points) demands
  have hconstructed : Taped.Repeats (R := R) (scheduler (.pct depth horizon)) (.pct points)
      (ds ++ []) := by
    show Taped.Repeats (Simloom.changePoints horizon (depth - 1).toNat >>= fun points =>
      pure (SchedulerState.pct points)) _ _
    rw [← hlength]
    exact hchanges.bind (Taped.repeats_pure _)
  obtain ⟨t, hscheduler, ht, _⟩ := hconstructed (Tape.replayStrict (ds ++ [] ++ ds')) ds'
    (Tape.replay_feeding _ _ _ _)
  obtain ⟨u, hserved, hu⟩ := hserve t [] (by rwa [List.append_nil])
  exact ⟨ds ++ [] ++ ds', t, u, hscheduler, hserved, hu.replayExact.mpr rfl⟩

end Pct
end Simloom
