import Mathlib.Data.List.MinMax
import Mathlib.Data.Prod.Lex
import Mathlib.Data.List.Perm.Subperm
import Simloom.Run.Execute
import Simloom.Theory.Dict

/-! The PCT scheduler: `_PCT` of `_sched.py`.

An entity gets a drawn priority when it first competes. The ready entity with the
highest one runs, and at the change points it is demoted below all that were drawn or
demoted before. `Ranked` says where every priority comes from, by the demotions so far;
all that the strategy promises of a run follows from it. -/
namespace Simloom
open Theory (Dict)

/-- A priority and the tie breaker, compared in that order. -/
abbrev Priority := Int ×ₗ Int

/-- What a handle calls: a bound method of a task or of something else, a plain function,
or a `functools.partial` of another callable. -/
inductive HandleCall where
  | ofTask (task : Nat)
  | plain
  | wrapped (func : HandleCall)
deriving DecidableEq

/-- `_entity`: the task's number in the order of creation, or the loop's own -1. -/
def HandleCall.entity (taskOrder : Dict Nat Nat) : HandleCall → Int
  | .ofTask task => match taskOrder.get? task with
    | some order => order
    | none => -1
  | .plain => -1
  | .wrapped func => func.entity taskOrder

/-- `floor` is what the next demotion gives. -/
structure Pct where
  priorities : Dict Int Priority
  floor : Int
  steps : Nat
  changePoints : List Nat

namespace Pct
variable {R : RandomSource}

def start (changePoints : List Nat) : Pct := ⟨.empty, -1, 0, changePoints⟩

/-! ### One pick -/

/-- `_priority`: drawn at the first request. A refused draw raises and leaves everything
as it was. -/
def priority (s : Pct) (t : Tape R) (entity : Int) : Except TapeError Priority × Pct × Tape R :=
  match s.priorities.get? entity with
  | some found => (.ok found, s, t)
  | none => match t.draw "pct.prio" 1024 with
    | .error e => (.error e, s, t)
    | .ok (v, u) =>
      let found : Priority := toLex ((v.val : Int), -entity)
      (.ok found, {s with priorities := s.priorities.set entity found}, u)

/-- The priorities of all that compete, asked for in turn. -/
def rank (s : Pct) (t : Tape R) : List Int → Except TapeError (List Priority) × Pct × Tape R
  | [] => (.ok [], s, t)
  | entity :: rest => match s.priority t entity with
    | (.error e, s, t) => (.error e, s, t)
    | (.ok p, s, t) => match rank s t rest with
      | (.error e, s, t) => (.error e, s, t)
      | (.ok ps, s, t) => (.ok (p :: ps), s, t)

/-- The order in which `max` compares. -/
instance : Preorder (Priority ×ₗ Int) :=
  (inferInstance : LinearOrder (Priority ×ₗ Int)).toPreorder

/-- `max` by priority, and then by the smaller index. -/
def choose (ps : List Priority) : Nat :=
  ((List.range ps.length).argmax fun i =>
    (toLex (ps.getD i (toLex (0, 0)), -(i : Int)) : Priority ×ₗ Int)).getD 0

/-- Who runs. One that is alone does not compete. -/
def compete (s : Pct) (t : Tape R) (entities : List Int) : Except TapeError Nat × Pct × Tape R :=
  if entities.length = 1 then (.ok 0, s, t)
  else match s.rank t entities with
    | (.error e, s, t) => (.error e, s, t)
    | (.ok ps, s, t) => (.ok (choose ps), s, t)

/-- This step is a change point. -/
def changes (s : Pct) : Bool := s.steps ∈ s.changePoints

def demote (s : Pct) (entity : Int) : Pct :=
  {s with priorities := s.priorities.set entity (toLex (s.floor, -entity)), floor := s.floor - 1}

/-- At a change point the one that runs is demoted. -/
def settle (s : Pct) (entity : Int) : Pct :=
  let s := if s.changes then s.demote entity else s
  {s with steps := s.steps + 1}

def pick (s : Pct) (t : Tape R) (entities : List Int) : Except TapeError Nat × Pct × Tape R :=
  match s.compete t entities with
  | (.error e, s, t) => (.error e, s, t)
  | (.ok index, s, t) => (.ok index, s.settle (entities.getD index (-1)), t)

/-! ### Runs -/

/-- One call of `pick`: the tape as the rest of the program has left it, the loop's task
order, and the ready handles. -/
structure Turn (R : RandomSource) where
  tape : Tape R
  taskOrder : Dict Nat Nat
  ready : List HandleCall
  nonempty : ready ≠ []

def Turn.entities (turn : Turn R) : List Int := turn.ready.map (HandleCall.entity turn.taskOrder)

/-- What there is to say of one call: the priorities when the choice was made, what it
returned, and who was demoted. -/
structure Pick where
  ready : List Int
  priorities : Dict Int Priority
  index : Except TapeError Nat
  demoted : Option Int

/-- The entity that was chosen. -/
def Pick.chosen (p : Pick) : Option Int :=
  match p.index with
  | .ok index => p.ready[index]?
  | .error _ => none

def note (s : Pct) (turn : Turn R) : Pick :=
  let competed := s.compete turn.tape turn.entities
  { ready := turn.entities
    priorities := competed.2.1.priorities
    index := (s.pick turn.tape turn.entities).1
    demoted := match competed.1 with
      | .ok index => if competed.2.1.changes then some (turn.entities.getD index (-1)) else none
      | .error _ => none }

def next (s : Pct) (turn : Turn R) : Pct := (s.pick turn.tape turn.entities).2.1

/-- Any number of calls, one after the other; one that raised may be followed by more. -/
def picks (s : Pct) : List (Turn R) → List Pick
  | [] => []
  | turn :: rest => s.note turn :: (s.next turn).picks rest

def after (s : Pct) : List (Turn R) → Pct
  | [] => s
  | turn :: rest => (s.next turn).after rest

/-- Who was demoted, in order. -/
def demotions (ps : List Pick) : List Int := ps.filterMap Pick.demoted

/-- What is returned is what the competition found. -/
theorem pick_index (s : Pct) (t : Tape R) (entities : List Int) :
    (s.pick t entities).1 = (s.compete t entities).1 := by
  unfold pick
  split <;> simp_all

/-! ### What a pick draws -/

/-- Priorities are only added, and those that are added were drawn. -/
structure Grows (s s' : Pct) : Prop where
  kept : ∀ e p, s.priorities.get? e = some p → s'.priorities.get? e = some p
  drawn : ∀ e p, s'.priorities.get? e = some p → s.priorities.get? e = some p ∨
    ∃ v : Nat, p = toLex ((v : Int), -e)
  floor : s'.floor = s.floor
  steps : s'.steps = s.steps
  changePoints : s'.changePoints = s.changePoints

theorem Grows.refl (s : Pct) : Grows s s := ⟨fun _ _ h => h, fun _ _ h => .inl h, rfl, rfl, rfl⟩

theorem Grows.trans {a b c : Pct} (h : Grows a b) (h' : Grows b c) : Grows a c where
  kept := fun e p hp => h'.kept e p (h.kept e p hp)
  drawn := fun e p hp => (h'.drawn e p hp).elim (h.drawn e p) .inr
  floor := h'.floor.trans h.floor
  steps := h'.steps.trans h.steps
  changePoints := h'.changePoints.trans h.changePoints

theorem priority_grows (s : Pct) (t : Tape R) (entity : Int) :
    Grows s (s.priority t entity).2.1 ∧
      ∀ p, (s.priority t entity).1 = .ok p → (s.priority t entity).2.1.priorities.get? entity = some p := by
  unfold priority
  split
  next found hfound => exact ⟨.refl s, fun p hp => Except.ok.inj hp ▸ hfound⟩
  next hnone =>
    split
    next => exact ⟨.refl s, fun p hp => by cases hp⟩
    next v u _ =>
      refine ⟨⟨fun e p hp => ?_, fun e p hp => ?_, rfl, rfl, rfl⟩, fun p hp => ?_⟩
      · rw [Dict.get?_set_ne, hp]
        rintro rfl
        rw [hnone] at hp
        cases hp
      · rw [Dict.get?_set] at hp
        split at hp
        next he => exact .inr ⟨v.val, he ▸ (Option.some.inj hp).symm⟩
        next => exact .inl hp
      · rw [← Except.ok.inj hp]
        exact Dict.get?_set_self ..

theorem rank_grows (s : Pct) (t : Tape R) (entities : List Int) :
    Grows s (s.rank t entities).2.1 ∧ ∀ ps, (s.rank t entities).1 = .ok ps →
      List.Forall₂ (fun e p => (s.rank t entities).2.1.priorities.get? e = some p) entities ps := by
  induction entities generalizing s t with
  | nil => exact ⟨.refl s, fun ps hps => Except.ok.inj hps ▸ .nil⟩
  | cons entity rest ih =>
    obtain ⟨hgrows, hget⟩ := s.priority_grows t entity
    unfold rank
    rcases hp : s.priority t entity with ⟨e | p, s₁, t₁⟩
    · rw [hp] at hgrows
      exact ⟨hgrows, fun ps hps => by cases hps⟩
    · rw [hp] at hgrows hget
      obtain ⟨hgrows', hall⟩ := ih s₁ t₁
      dsimp only
      rcases hr : s₁.rank t₁ rest with ⟨e | ps, s₂, t₂⟩
      · rw [hr] at hgrows'
        exact ⟨hgrows.trans hgrows', fun ps hps => by cases hps⟩
      · rw [hr] at hgrows' hall
        refine ⟨hgrows.trans hgrows', fun qs hqs => ?_⟩
        rw [← Except.ok.inj hqs]
        exact .cons (hgrows'.kept _ _ (hget p rfl)) (hall ps rfl)

theorem compete_grows (s : Pct) (t : Tape R) (entities : List Int) :
    Grows s (s.compete t entities).2.1 := by
  unfold compete
  split
  · exact .refl s
  · have hgrows := (s.rank_grows t entities).1
    split
    next hr => rw [hr] at hgrows; exact hgrows
    next hr => rw [hr] at hgrows; exact hgrows

/-- The choice is of a highest priority, and of the first that has it. -/
theorem choose_spec {ps : List Priority} (h : ps ≠ []) : ∃ p, ps[choose ps]? = some p ∧
    ∀ j q, ps[j]? = some q → q < p ∨ q = p ∧ choose ps ≤ j := by
  let key : Nat → Priority ×ₗ Int := fun i => toLex (ps.getD i (toLex (0, 0)), -(i : Int))
  have hsome : ((List.range ps.length).argmax key).isSome = true := by
    rw [Option.isSome_iff_ne_none, Ne, List.argmax_eq_none, List.range_eq_nil]
    exact fun hlen => h (List.eq_nil_of_length_eq_zero hlen)
  obtain ⟨i, hi⟩ := Option.isSome_iff_exists.mp hsome
  have hchoose : choose ps = i := by
    show ((List.range ps.length).argmax key).getD 0 = i
    rw [hi, Option.getD_some]
  have hlt : i < ps.length := List.mem_range.mp (List.argmax_mem hi)
  refine ⟨ps[i], by rw [hchoose, List.getElem?_eq_getElem hlt], fun j q hq => ?_⟩
  obtain ⟨hj, rfl⟩ := List.getElem?_eq_some_iff.mp hq
  have hle : key j ≤ key i := List.le_of_mem_argmax (List.mem_range.mpr hj) hi
  have hkey (k : Nat) (hk : k < ps.length) : key k = toLex (ps[k], -(k : Int)) := by
    simp [key, hk]
  rw [hkey j hj, hkey i hlt, Prod.Lex.toLex_le_toLex] at hle
  rcases hle with hlt' | ⟨heq, hle⟩
  · exact .inl hlt'
  · exact .inr ⟨heq, by omega⟩

/-! ### Where priorities come from -/

/-- Every priority was drawn, or given by the latest demotion of its entity; `ds` are the
demotions so far, each made at a change point of its own. -/
structure Ranked (s : Pct) (ds : List Int) : Prop where
  tie : ∀ e p, s.priorities.get? e = some p → (ofLex p).2 = -e
  floor : s.floor = -(ds.length : Int) - 1
  drawn : ∀ e p, s.priorities.get? e = some p → e ∉ ds → 0 ≤ (ofLex p).1
  demoted : ∀ as x bs, ds = as ++ x :: bs → x ∉ bs →
    s.priorities.get? x = some (toLex (-(as.length : Int) - 1, -x))
  few : ds.length ≤ ((List.range s.steps).filter (· ∈ s.changePoints)).length

theorem ranked_start (changePoints : List Nat) : Ranked (start changePoints) [] where
  tie := fun e p h => by cases h
  floor := rfl
  drawn := fun e p h => by cases h
  demoted := by simp
  few := Nat.le_refl _

namespace Ranked
variable {s s' : Pct} {ds : List Int}

theorem grows (h : Ranked s ds) (hg : Grows s s') : Ranked s' ds where
  tie := fun e p hp => by
    rcases hg.drawn e p hp with hp | ⟨v, rfl⟩
    · exact h.tie e p hp
    · rfl
  floor := hg.floor.trans h.floor
  drawn := fun e p hp he => by
    rcases hg.drawn e p hp with hp | ⟨v, rfl⟩
    · exact h.drawn e p hp he
    · exact Int.natCast_nonneg v
  demoted := fun as x bs hds hx => hg.kept x _ (h.demoted as x bs hds hx)
  few := by
    rw [hg.steps, hg.changePoints]
    exact h.few

theorem demote (h : Ranked s ds) (hc : s.changes = true) (entity : Int) :
    Ranked {s.demote entity with steps := s.steps + 1} (ds ++ [entity]) where
  tie := by
    intro e p hp
    have hp' : (s.priorities.set entity (toLex (s.floor, -entity))).get? e = some p := hp
    rw [Dict.get?_set] at hp'
    split at hp'
    next he => rw [← Option.some.inj hp', he]; rfl
    next => exact h.tie e p hp'
  floor := by
    have := h.floor
    simp only [Pct.demote, List.length_append, List.length_singleton]
    omega
  drawn := by
    intro e p hp he
    rw [List.mem_append, List.mem_singleton, not_or] at he
    refine h.drawn e p ?_ he.1
    rw [← hp]
    exact (Dict.get?_set_ne _ _ he.2).symm
  demoted := by
    intro as x bs hds hx
    rcases List.eq_nil_or_concat bs with rfl | ⟨bs', y, rfl⟩
    · obtain ⟨rfl, hxe⟩ := List.append_inj' hds rfl
      obtain rfl : entity = x := (List.cons.inj hxe).1
      show (s.priorities.set entity (toLex (s.floor, -entity))).get? entity = _
      rw [Dict.get?_set_self, h.floor]
    · rw [List.concat_eq_append, ← List.cons_append, ← List.append_assoc] at hds
      obtain ⟨hds', hy⟩ := List.append_inj' hds rfl
      rw [List.concat_eq_append, List.mem_append, not_or] at hx
      have hxe : x ≠ entity := by
        rintro rfl
        exact hx.2 (hy ▸ List.mem_singleton_self _)
      show (s.priorities.set entity (toLex (s.floor, -entity))).get? x = _
      rw [Dict.get?_set_ne _ _ hxe]
      exact h.demoted as x bs' hds' hx.1
  few := by
    have hfilter : ((List.range (s.steps + 1)).filter (· ∈ s.changePoints)).length =
        ((List.range s.steps).filter (· ∈ s.changePoints)).length + 1 := by
      have hmem : s.steps ∈ s.changePoints := of_decide_eq_true hc
      rw [List.range_succ, List.filter_append, List.length_append]
      simp [hmem]
    rw [List.length_append, List.length_singleton]
    exact hfilter ▸ Nat.succ_le_succ h.few

theorem settle (h : Ranked s ds) (entity : Int) :
    Ranked (s.settle entity) (ds ++ if s.changes then [entity] else []) := by
  unfold Pct.settle
  cases hc : s.changes with
  | true => exact h.demote hc entity
  | false =>
    simp only [Bool.false_eq_true, if_false, List.append_nil]
    refine { h with few := h.few.trans ?_ }
    exact ((List.range_sublist.mpr (Nat.le_succ _)).filter _).length_le

theorem next (h : Ranked s ds) (turn : Turn R) :
    Ranked (s.next turn) (ds ++ (s.note turn).demoted.toList) := by
  have hgrown := h.grows (s.compete_grows turn.tape turn.entities)
  simp only [Pct.next, Pct.pick, note]
  rcases hc : s.compete turn.tape turn.entities with ⟨e | index, s₁, t₁⟩
  · rw [hc] at hgrown
    simpa using hgrown
  · rw [hc] at hgrown
    have := hgrown.settle (turn.entities.getD index (-1))
    dsimp only
    cases hch : s₁.changes <;> simpa [hch] using this

theorem after (h : Ranked s ds) (turns : List (Turn R)) :
    Ranked (s.after turns) (ds ++ demotions (s.picks turns)) := by
  induction turns generalizing s ds with
  | nil => simpa [Pct.after, picks, demotions] using h
  | cons turn rest ih =>
    have := ih (h.next turn)
    cases hd : (s.note turn).demoted <;> simpa [Pct.after, picks, demotions, hd] using this

end Ranked

/-! ### What the strategy promises -/

/-- No two entities have one priority. -/
def Distinct (priorities : Dict Int Priority) : Prop :=
  ∀ a b p q, priorities.get? a = some p → priorities.get? b = some q → a ≠ b → p ≠ q

/-- The index returned is that of a ready handle, the first of its entity, and the entity's
priority is higher than that of any other that is ready. -/
def Highest (p : Pick) : Prop :=
  ∀ index, p.index = .ok index → ∃ e, p.ready[index]? = some e ∧
    (∀ j, j < index → p.ready[j]? ≠ some e) ∧
    ∀ e' ∈ p.ready, e' ≠ e → ∃ high low, p.priorities.get? e = some high ∧
      p.priorities.get? e' = some low ∧ low < high

/-- Entities that were demoted are below those that were not, and each below those whose
last demotion was before its own. -/
def Stacked (ds : List Int) (priorities : Dict Int Priority) : Prop :=
  (∀ x ∈ ds, ∀ y, y ∉ ds → ∀ q, priorities.get? y = some q →
    ∃ p, priorities.get? x = some p ∧ p < q) ∧
  ∀ as x bs, ds = as ++ x :: bs → x ∉ bs → ∀ y ∈ bs, ∃ p q, priorities.get? x = some p ∧
    priorities.get? y = some q ∧ q < p

/-- Where one was chosen over another that was ready, the other is never chosen over it
later, unless one of the two was demoted. -/
def Stable (ps : List Pick) : Prop :=
  ∀ before first between later rest a b, ps = before ++ first :: (between ++ later :: rest) →
    a ≠ b → first.chosen = some a → b ∈ first.ready →
    (∀ p ∈ first :: between, p.demoted ≠ some a ∧ p.demoted ≠ some b) →
    a ∈ later.ready → later.chosen ≠ some b

/-- A member has a last place. -/
theorem last_occurrence {x : Int} {ds : List Int} (h : x ∈ ds) :
    ∃ as bs, ds = as ++ x :: bs ∧ x ∉ bs := by
  obtain ⟨as, bs, hds, hx⟩ := List.eq_append_cons_of_mem (List.mem_reverse.mpr h)
  refine ⟨bs.reverse, as.reverse, ?_, fun hmem => hx (List.mem_reverse.mp hmem)⟩
  rw [← List.reverse_reverse ds, hds]
  simp

namespace Ranked
variable {s : Pct} {ds : List Int}

theorem distinct (h : Ranked s ds) : Distinct s.priorities := by
  rintro a b p q hp hq hab rfl
  have ha := h.tie a p hp
  have hb := h.tie b p hq
  omega

theorem stacked (h : Ranked s ds) : Stacked ds s.priorities := by
  constructor
  · intro x hx y hy q hq
    obtain ⟨as, bs, hds, hlast⟩ := last_occurrence hx
    refine ⟨_, h.demoted as x bs hds hlast, Prod.Lex.toLex_lt_toLex.mpr (.inl ?_)⟩
    have := h.drawn y q hq hy
    show -(as.length : Int) - 1 < (ofLex q).1
    omega
  · intro as x bs hds hx y hy
    obtain ⟨cs, es, rfl, hlast⟩ := last_occurrence hy
    have hds' : ds = (as ++ x :: cs) ++ y :: es := by simp [hds]
    refine ⟨_, _, h.demoted as x _ hds hx, h.demoted _ y es hds' hlast,
      Prod.Lex.toLex_lt_toLex.mpr (.inl ?_)⟩
    simp only [List.length_append, List.length_cons]
    omega

/-- A pick returns the first handle of the highest entity. -/
theorem highest (h : Ranked s ds) (turn : Turn R) : Highest (s.note turn) := by
  intro index hindex
  have hranked := h.grows (s.compete_grows turn.tape turn.entities)
  have hne : turn.entities ≠ [] := fun hnil => turn.nonempty (List.map_eq_nil_iff.mp hnil)
  replace hindex : (s.compete turn.tape turn.entities).1 = .ok index :=
    (pick_index s turn.tape turn.entities).symm.trans hindex
  by_cases hone : turn.entities.length = 1
  · -- alone, it does not compete
    obtain ⟨e, he⟩ := List.length_eq_one_iff.mp hone
    have hzero : index = 0 := by
      rw [compete, if_pos hone] at hindex
      exact (Except.ok.inj hindex).symm
    subst hzero
    refine ⟨e, ?_, fun j hj => absurd hj (Nat.not_lt_zero j), fun e' he' hother => ?_⟩
    · show turn.entities[0]? = some e
      rw [he]
      rfl
    · have hmem : e' ∈ turn.entities := he'
      rw [he, List.mem_singleton] at hmem
      exact absurd hmem hother
  · obtain ⟨ps, hforall, hchoose⟩ : ∃ ps, List.Forall₂ (fun e p =>
        (s.compete turn.tape turn.entities).2.1.priorities.get? e = some p) turn.entities ps ∧
        index = choose ps := by
      have hrank := (s.rank_grows turn.tape turn.entities).2
      rw [compete, if_neg hone] at hindex ⊢
      rcases hr : s.rank turn.tape turn.entities with ⟨e | ps, s₁, t₁⟩
      · rw [hr] at hindex
        cases hindex
      · rw [hr] at hindex hrank
        exact ⟨ps, hrank ps rfl, (Except.ok.inj hindex).symm⟩
    have hlen := hforall.length_eq
    have hps : ps ≠ [] := fun hnil => hne (List.length_eq_zero_iff.mp (by rw [hlen, hnil]; rfl))
    -- the priority of each place is that of its entity
    have hplace (j : Nat) (e : Int) (he : turn.entities[j]? = some e) : ∃ q, ps[j]? = some q ∧
        (s.compete turn.tape turn.entities).2.1.priorities.get? e = some q := by
      obtain ⟨hj, rfl⟩ := List.getElem?_eq_some_iff.mp he
      exact ⟨ps.get ⟨j, hlen ▸ hj⟩, List.getElem?_eq_getElem _, hforall.get hj (hlen ▸ hj)⟩
    obtain ⟨p, hp, hbest⟩ := choose_spec hps
    have hlt : choose ps < turn.entities.length := by
      rw [hlen]
      exact (List.getElem?_eq_some_iff.mp hp).1
    rw [hchoose]
    have he : turn.entities[choose ps]? = some turn.entities[choose ps] :=
      List.getElem?_eq_getElem hlt
    obtain ⟨p', hp', hget⟩ := hplace _ _ he
    obtain rfl : p = p' := Option.some.inj (hp.symm.trans hp')
    refine ⟨turn.entities[choose ps], he, fun j hj hfirst => ?_, fun e' he' hother => ?_⟩
    · obtain ⟨q, hq, hgetq⟩ := hplace j _ hfirst
      obtain rfl : p = q := Option.some.inj (hget.symm.trans hgetq)
      rcases hbest j p hq with hlower | ⟨_, hle⟩
      · exact lt_irrefl p hlower
      · omega
    · obtain ⟨j, hj⟩ := List.mem_iff_getElem?.mp he'
      obtain ⟨q, hq, hgetq⟩ := hplace j e' hj
      refine ⟨p, q, hget, hgetq, ?_⟩
      rcases hbest j q hq with hlower | ⟨heq, _⟩
      · exact hlower
      · exact absurd heq (hranked.distinct _ _ q p hgetq hget hother)

end Ranked

/-! ### Runs -/

/-- A pick of a run is one call, after others and before the rest. -/
theorem picks_split {s : Pct} {turns : List (Turn R)} {ps qs : List Pick} {p : Pick}
    (h : s.picks turns = ps ++ p :: qs) : ∃ as turn bs, turns = as ++ turn :: bs ∧
      ps = s.picks as ∧ p = (s.after as).note turn ∧ qs = ((s.after as).next turn).picks bs := by
  induction turns generalizing s ps with
  | nil => simp [picks] at h
  | cons turn rest ih =>
    cases ps with
    | nil =>
      obtain ⟨rfl, rfl⟩ := List.cons.inj h
      exact ⟨[], turn, rest, rfl, rfl, rfl, rfl⟩
    | cons q ps =>
      obtain ⟨rfl, hrest⟩ := List.cons.inj h
      obtain ⟨as, turn', bs, rfl, rfl, rfl, rfl⟩ := ih hrest
      exact ⟨turn :: as, turn', bs, rfl, rfl, rfl, rfl⟩

/-- Only a demotion changes the priority that an entity has competed with. -/
theorem note_kept {s : Pct} {turn : Turn R} {e : Int} {p : Priority}
    (hp : (s.note turn).priorities.get? e = some p) (hd : (s.note turn).demoted ≠ some e) :
    (s.next turn).priorities.get? e = some p := by
  simp only [note] at hp hd
  simp only [next, pick]
  rcases hc : s.compete turn.tape turn.entities with ⟨err | index, s₁, t₁⟩
  · rw [hc] at hp
    exact hp
  · rw [hc] at hp hd
    dsimp only at hp hd ⊢
    unfold settle
    cases hch : s₁.changes with
    | false => exact hp
    | true =>
      have hne : e ≠ turn.entities.getD index (-1) := fun he => hd (by simp [hch, he])
      exact (Dict.get?_set_ne _ _ hne).trans hp

theorem next_kept {s : Pct} {turn : Turn R} {e : Int} {p : Priority}
    (hp : s.priorities.get? e = some p) (hd : (s.note turn).demoted ≠ some e) :
    (s.next turn).priorities.get? e = some p :=
  note_kept ((s.compete_grows turn.tape turn.entities).kept e p hp) hd

theorem after_kept {s : Pct} {turns : List (Turn R)} {e : Int} {p : Priority}
    (hp : s.priorities.get? e = some p) (hd : ∀ q ∈ s.picks turns, q.demoted ≠ some e) :
    (s.after turns).priorities.get? e = some p := by
  induction turns generalizing s with
  | nil => exact hp
  | cons turn rest ih =>
    exact ih (next_kept hp (hd _ List.mem_cons_self)) fun q hq => hd q (List.mem_cons_of_mem _ hq)

/-- The chosen entity has a higher priority than any other that is ready. -/
theorem Highest.chosen {p : Pick} (h : Highest p) {a b : Int} (ha : p.chosen = some a)
    (hb : b ∈ p.ready) (hab : a ≠ b) : ∃ high low, p.priorities.get? a = some high ∧
      p.priorities.get? b = some low ∧ low < high := by
  unfold Pick.chosen at ha
  split at ha
  next index hindex =>
    obtain ⟨e, he, _, hhigh⟩ := h index hindex
    obtain rfl : e = a := Option.some.inj (he.symm.trans ha)
    exact hhigh b hb hab.symm
  next => cases ha

/-- **Between demotions the order is fixed.** -/
theorem Ranked.stable {s : Pct} {ds : List Int} (h : Ranked s ds) (turns : List (Turn R)) :
    Stable (s.picks turns) := by
  intro before first between later rest a b hpicks hab hfirst hb hkept ha hchosen
  obtain ⟨as, turn, bs, rfl, rfl, rfl, hrest⟩ := picks_split hpicks
  obtain ⟨cs, turn', es, rfl, rfl, rfl, _⟩ := picks_split hrest.symm
  have hranked := h.after as
  have hranked' := (hranked.next turn).after cs
  obtain ⟨high, low, hhigh, hlow, hlt⟩ := (hranked.highest turn).chosen hfirst hb hab
  obtain ⟨high', low', hhigh', hlow', hlt'⟩ := (hranked'.highest turn').chosen hchosen ha hab.symm
  -- both priorities are what they were
  have hstill (e : Int) (p : Priority) (he : ((s.after as).note turn).priorities.get? e = some p)
      (hd : ∀ q ∈ (s.after as).note turn :: ((s.after as).next turn).picks cs, q.demoted ≠ some e) :
      ((((s.after as).next turn).after cs).note turn').priorities.get? e = some p :=
    (compete_grows _ turn'.tape turn'.entities).kept e p
      (after_kept (note_kept he (hd _ List.mem_cons_self))
        fun q hq => hd q (List.mem_cons_of_mem _ hq))
  have ha' := hstill a high hhigh fun q hq => (hkept q hq).1
  have hb' := hstill b low hlow fun q hq => (hkept q hq).2
  obtain rfl : high = low' := Option.some.inj (ha'.symm.trans hlow')
  obtain rfl : low = high' := Option.some.inj (hb'.symm.trans hhigh')
  exact lt_asymm hlt hlt'

theorem changePoints_length {horizon : Int} {n : Nat} {t t' : Tape R} {points : List Nat}
    (h : Simloom.changePoints horizon n t = .ok (points, t')) : points.length = n := by
  induction n generalizing t t' points with
  | zero =>
    obtain ⟨rfl, _⟩ := Prod.mk.inj (Except.ok.inj h)
    rfl
  | succ n ih =>
    obtain ⟨point, u, _, h⟩ := Taped.bind_ok h
    obtain ⟨rest, v, hrest, h⟩ := Taped.bind_ok h
    obtain ⟨rfl, _⟩ := Prod.mk.inj (Except.ok.inj h)
    rw [List.length_cons, ih hrest]

/-- There are no more demotions than change points. -/
theorem Ranked.demotions_le {s : Pct} {ds : List Int} (h : Ranked s ds) :
    ds.length ≤ s.changePoints.length := by
  refine h.few.trans (List.Subperm.length_le (List.subperm_of_subset
    (List.nodup_range.filter _) fun x hx => ?_))
  exact of_decide_eq_true (List.mem_filter.mp hx).2

theorem next_changePoints (s : Pct) (turn : Turn R) : (s.next turn).changePoints = s.changePoints := by
  have hgrown := (s.compete_grows turn.tape turn.entities).changePoints
  simp only [next, pick]
  rcases hc : s.compete turn.tape turn.entities with ⟨err | index, s₁, t₁⟩
  · rw [hc] at hgrown
    exact hgrown
  · rw [hc] at hgrown
    dsimp only
    unfold settle demote
    split <;> exact hgrown

theorem after_changePoints (s : Pct) (turns : List (Turn R)) :
    (s.after turns).changePoints = s.changePoints := by
  induction turns generalizing s with
  | nil => rfl
  | cons turn rest ih => rw [after, ih, next_changePoints]

/-- **PCT is a strict priority schedule.** In every run of picks after its construction:
each pick returns the first handle of the highest ready entity, priorities are distinct at
every pick and after it, there are at most `depth - 1` demotions, demoted entities are
stacked below the others, and between demotions the order is fixed. -/
theorem pct_strict (depth horizon : Int) {t t' : Tape R} {points : List Nat}
    (h : scheduler (.pct depth horizon) t = .ok (.pct points, t')) (turns : List (Turn R)) :
    (∀ p ∈ (start points).picks turns, Highest p ∧ Distinct p.priorities) ∧
      Distinct ((start points).after turns).priorities ∧
      ((demotions ((start points).picks turns)).length : Int) ≤ max 0 (depth - 1) ∧
      Stacked (demotions ((start points).picks turns)) ((start points).after turns).priorities ∧
      Stable ((start points).picks turns) := by
  have hafter : Ranked ((start points).after turns) (demotions ((start points).picks turns)) := by
    simpa using (ranked_start points).after turns
  refine ⟨fun p hp => ?_, hafter.distinct, ?_, hafter.stacked, (ranked_start points).stable turns⟩
  · obtain ⟨ps, qs, hsplit⟩ := List.append_of_mem hp
    obtain ⟨as, turn, bs, -, -, rfl, -⟩ := picks_split hsplit
    have hranked := (ranked_start points).after as
    exact ⟨hranked.highest turn,
      (hranked.grows (compete_grows _ turn.tape turn.entities)).distinct⟩
  · obtain ⟨ps, u, hps, hend⟩ := Taped.bind_ok h
    obtain ⟨hpoints, -⟩ := Prod.mk.inj (Except.ok.inj hend)
    obtain rfl : ps = points := SchedulerState.pct.inj hpoints
    have hlen := changePoints_length hps
    have hle := hafter.demotions_le
    rw [after_changePoints] at hle
    have hle' : (demotions ((start ps).picks turns)).length ≤ ps.length := hle
    omega

/-- Two tasks that are ready, the second of them under a `functools.partial`. -/
def twoReady : Turn zeroSource :=
  ⟨.generate 0, (Dict.empty.set 7 0).set 8 1, [.ofTask 7, .wrapped (.ofTask 8)], by simp⟩

theorem pct_strict_two :
    (∀ p ∈ (start [0]).picks [twoReady, twoReady], Highest p ∧ Distinct p.priorities) ∧
      Distinct ((start [0]).after [twoReady, twoReady]).priorities ∧
      ((demotions ((start [0]).picks [twoReady, twoReady])).length : Int) ≤ max 0 (2 - 1) ∧
      Stacked (demotions ((start [0]).picks [twoReady, twoReady]))
        ((start [0]).after [twoReady, twoReady]).priorities ∧
      Stable ((start [0]).picks [twoReady, twoReady]) :=
  pct_strict 2 3 (t := (Tape.generate 0 : Tape zeroSource)) rfl _

end Pct
end Simloom
