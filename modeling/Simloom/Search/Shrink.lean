import Simloom.Search.DecisionTree
import Simloom.Theory.Loop
import Mathlib.Data.List.Lex
import Mathlib.Data.Prod.Lex

/-! The shrinker: three passes over a failing tape, within a budget of runs.

A candidate is an edited tape. It is executed with zero refill and accepted if it
is still interesting and the tape it recorded is smaller, and that recorded tape
replaces the current one, whatever the edit was. Each pass is a loop: an accepted
candidate spends budget, anything else moves on, so each is a `Loop`. What an
attempt can do is said once (`tryAccept_cases`); a pass then only needs that a
`Shrinks` step can be followed by another. -/
namespace Simloom
open Theory (Loop Yields Returns)

structure ShrinkResult where
  tape : List Draw
  result : RunResult
  runsUsed : Nat
  initialLength : Nat
  initialDeviations : Nat

def deviations (draws : List Draw) : Nat := draws.countP (·.value != 0)

/-- The minimisation order: fewest deviations first, then shortlex. -/
def key (draws : List Draw) : Nat ×ₗ Nat ×ₗ List Nat :=
  toLex (deviations draws, toLex (draws.length, draws.map Draw.value))

/-- Candidate replacements for a value, the most aggressive first. -/
def descend (value : Nat) : List Nat :=
  let half := value / 2
  let candidates := [0] ++ if half ≠ 0 ∧ half ≠ value then [half] else []
  candidates ++ if value - 1 ∉ candidates ∧ value - 1 ≠ value then [value - 1] else []

theorem descend_le {value v : Nat} (h : v ∈ descend value) : v ≤ value := by
  rcases List.mem_append.mp h with h | h
  · rcases List.mem_append.mp h with h | h
    · rw [List.mem_singleton.mp h]
      exact Nat.zero_le value
    · rw [List.mem_singleton.mp (List.mem_ite_nil_right.mp h).2]
      exact Nat.div_le_self value 2
  · rw [List.mem_singleton.mp (List.mem_ite_nil_right.mp h).2]
    exact Nat.sub_le value 1

/-- `Draw(d.label, v, d.bound)` for a smaller value. -/
def Draw.lower (d : Draw) (v : Nat) (h : v ≤ d.value) : Draw :=
  ⟨d.label, v, d.bound, Nat.lt_of_le_of_lt h d.value_lt⟩

/-- What the search works on. `result` is the run that recorded `current`. -/
structure ShrinkState where
  current : List Draw
  result : RunResult
  runsUsed : Nat
  improved : Bool

/-- The call: how candidates are executed, what counts as the failure, the budget. -/
structure Shrinker where
  execute : List Draw → Except Halt RunResult
  interesting : RunResult → Bool
  maxRuns : Nat

namespace Shrinker
variable (p : Shrinker)

/-! ### One candidate -/

def tryAccept (candidate : List Draw) (s : ShrinkState) : Except Halt (Bool × ShrinkState) :=
  if s.runsUsed < p.maxRuns then do
    let outcome ← p.execute candidate
    if p.interesting outcome = true ∧ key outcome.tape < key s.current then
      return (true, {s with current := outcome.tape, result := outcome, runsUsed := s.runsUsed + 1})
    else return (false, {s with runsUsed := s.runsUsed + 1})
  else return (false, s)

/-- The state holds a run that was executed, found interesting and recorded. -/
structure Reproduced (s : ShrinkState) : Prop where
  executed : ∃ candidate, p.execute candidate = .ok s.result
  interesting : p.interesting s.result = true
  recorded : s.result.tape = s.current

/-- What any stretch of the search does to its state. -/
structure Shrinks (s s' : ShrinkState) : Prop where
  spent : s.runsUsed ≤ s'.runsUsed
  budget : s.runsUsed ≤ p.maxRuns → s'.runsUsed ≤ p.maxRuns
  key_le : key s'.current ≤ key s.current
  kept : s'.current = s.current ∧ s'.result = s.result ∨ p.Reproduced s'
  gained : s'.improved = true → s.improved = true ∨ s.runsUsed < s'.runsUsed

theorem Shrinks.refl (s : ShrinkState) : p.Shrinks s s :=
  ⟨Nat.le_refl _, id, le_refl _, .inl ⟨rfl, rfl⟩, .inl⟩

variable {p}

theorem Shrinks.trans {a b c : ShrinkState} (h : p.Shrinks a b) (h' : p.Shrinks b c) :
    p.Shrinks a c where
  spent := Nat.le_trans h.spent h'.spent
  budget := fun hb => h'.budget (h.budget hb)
  key_le := le_trans h'.key_le h.key_le
  kept := by
    rcases h'.kept with ⟨hc, hr⟩ | hrep
    · rcases h.kept with ⟨hc', hr'⟩ | ⟨he, hi, ht⟩
      · exact .inl ⟨hc.trans hc', hr.trans hr'⟩
      · exact .inr ⟨hr ▸ he, hr ▸ hi, by rw [hr, hc, ht]⟩
    · exact .inr hrep
  gained := by
    intro hi
    have hs := h.spent
    have hs' := h'.spent
    rcases h'.gained hi with hb | hlt
    · rcases h.gained hb with ha | hlt
      · exact .inl ha
      · exact .inr (by omega)
    · exact .inr (by omega)

variable (p)

/-- What an attempt comes to: a run that is accepted or not, or no run without budget. -/
theorem tryAccept_cases {candidate : List Draw} {s : ShrinkState} {r : Bool × ShrinkState}
    (h : p.tryAccept candidate s = .ok r) :
    (∃ outcome, p.execute candidate = .ok outcome ∧ s.runsUsed < p.maxRuns ∧
      if p.interesting outcome = true ∧ key outcome.tape < key s.current then
        r = (true, {s with
          current := outcome.tape, result := outcome, runsUsed := s.runsUsed + 1})
      else r = (false, {s with runsUsed := s.runsUsed + 1})) ∨
    ¬s.runsUsed < p.maxRuns ∧ r = (false, s) := by
  unfold tryAccept at h
  split at h
  next hb =>
    cases he : p.execute candidate with
    | error e => rw [he] at h; cases h
    | ok outcome =>
      rw [he] at h
      refine .inl ⟨outcome, rfl, hb, ?_⟩
      split
      next hi => exact Except.ok.inj (h.symm.trans (if_pos hi))
      next hi => exact Except.ok.inj (h.symm.trans (if_neg hi))
  next hb => exact .inr ⟨hb, (Except.ok.inj h).symm⟩

/-- What an attempt can do: accept and spend a run, or leave the tape alone. -/
theorem tryAccept_spec (candidate : List Draw) (s : ShrinkState) :
    Yields (p.tryAccept candidate s) fun r =>
      (r.1 = true → p.Shrinks s {r.2 with improved := true} ∧ s.runsUsed < p.maxRuns ∧
        s.runsUsed < r.2.runsUsed) ∧
      (r.1 = false → p.Shrinks s r.2 ∧ r.2.current = s.current) := by
  intro r h
  rcases p.tryAccept_cases h with ⟨outcome, he, hb, hr⟩ | ⟨-, rfl⟩
  · split at hr
    next hi =>
      rw [hr]
      refine ⟨fun _ => ⟨⟨Nat.le_succ _, fun _ => hb, le_of_lt hi.2, .inr ⟨⟨_, he⟩, hi.1, rfl⟩,
        fun _ => .inr (Nat.lt_succ_self _)⟩, hb, Nat.lt_succ_self _⟩, fun hf => ?_⟩
      cases hf
    next =>
      rw [hr]
      refine ⟨fun ht => ?_, fun _ => ⟨⟨Nat.le_succ _, fun _ => hb, le_refl _, .inl ⟨rfl, rfl⟩,
        .inl⟩, rfl⟩⟩
      cases ht
  · refine ⟨fun ht => ?_, fun _ => ⟨.refl p s, rfl⟩⟩
    cases ht

theorem tryAccept_returns (h : ∀ c, Returns (p.execute c)) (candidate : List Draw)
    (s : ShrinkState) : Returns (p.tryAccept candidate s) := by
  unfold tryAccept
  split
  · refine (h candidate).bind fun outcome => ?_
    split <;> exact ⟨_, rfl⟩
  · exact ⟨_, rfl⟩

/-! ### Turns

A loop over the current tape works on a state and an index into it. One turn
spends a run or leaves the tape and moves the index on. -/

def rank (x : ShrinkState × Nat) : Nat × Nat :=
  (p.maxRuns - x.1.runsUsed, x.1.current.length - x.2)

structure Turn (x y : ShrinkState × Nat) : Prop where
  shrinks : p.Shrinks x.1 y.1
  lower : Prod.Lex (· < ·) (· < ·) (p.rank y) (p.rank x)

variable {p} {s s' : ShrinkState} {i j : Nat}

theorem Turn.spent (h : p.Shrinks s s') (hb : s.runsUsed < p.maxRuns)
    (hs : s.runsUsed < s'.runsUsed) : p.Turn (s, i) (s', j) := by
  refine ⟨h, .left _ _ ?_⟩
  show p.maxRuns - s'.runsUsed < p.maxRuns - s.runsUsed
  omega

theorem Turn.kept (h : p.Shrinks s s') (hc : s'.current = s.current)
    (hi : i < s.current.length) (hj : i < j) : p.Turn (s, i) (s', j) := by
  refine ⟨h, ?_⟩
  have hlen : s'.current.length - j < s.current.length - i := by
    rw [hc]
    omega
  have hs := h.spent
  rcases Nat.eq_or_lt_of_le (Nat.sub_le_sub_left h.spent p.maxRuns) with he | hlt
  · show Prod.Lex _ _ (p.maxRuns - s'.runsUsed, _) (p.maxRuns - s.runsUsed, _)
    rw [he]
    exact .right _ hlen
  · exact .left _ _ hlt

variable (p)

/-! ### Pass 1: chunked deletion -/

def deleteStep (chunk : Nat) (x : ShrinkState × Nat) : Except Halt (Option (ShrinkState × Nat)) :=
  if x.2 < x.1.current.length ∧ x.1.runsUsed < p.maxRuns then
    let candidate := x.1.current.take x.2 ++ x.1.current.drop (x.2 + chunk)
    if candidate = [] then return some (x.1, x.2 + chunk)
    else do
      let r ← p.tryAccept candidate x.1
      return some (if r.1 = true then ({r.2 with improved := true}, x.2) else (r.2, x.2 + chunk))
  else return none

theorem deleteStep_spec {chunk : Nat} (hc : 0 < chunk) (x : ShrinkState × Nat) :
    Yields (p.deleteStep chunk x) fun r => ∀ y, r = some y → p.Turn x y := by
  unfold deleteStep
  split
  next hx =>
    dsimp only
    split
    · refine Theory.yields_ok fun y hy => ?_
      rw [← Option.some.inj hy]
      exact .kept (.refl p x.1) rfl hx.1 (Nat.lt_add_of_pos_right hc)
    · refine (p.tryAccept_spec _ x.1).bind fun r hr => Theory.yields_ok fun y hy => ?_
      rw [← Option.some.inj hy]
      cases hb : r.1 with
      | true =>
        obtain ⟨hs, hlt, hspent⟩ := hr.1 hb
        exact .spent hs hlt hspent
      | false =>
        obtain ⟨hs, hcur⟩ := hr.2 hb
        exact .kept hs hcur hx.1 (Nat.lt_add_of_pos_right hc)
  next => exact Theory.yields_ok fun y hy => by cases hy

def deletePass (chunk : Nat) (hc : 0 < chunk) : Loop Halt (ShrinkState × Nat) where
  step := p.deleteStep chunk
  rank := p.rank
  decreases := fun x y h => (p.deleteStep_spec hc x _ h y rfl).lower

/-! ### Pass 1.5: block zeroing -/

/-- `Draw(d.label, 0, d.bound)`. -/
def zeroed (block : List Draw) : List Draw := block.map fun d => d.lower 0 (Nat.zero_le _)

def zeroStep (chunk : Nat) (x : ShrinkState × Nat) : Except Halt (Option (ShrinkState × Nat)) :=
  if x.2 < x.1.current.length ∧ x.1.runsUsed < p.maxRuns then
    let block := (x.1.current.drop x.2).take chunk
    if block.any (·.value != 0) = true then do
      let candidate := x.1.current.take x.2 ++ zeroed block ++ x.1.current.drop (x.2 + chunk)
      let r ← p.tryAccept candidate x.1
      return some (if r.1 = true then {r.2 with improved := true} else r.2, x.2 + chunk)
    else return some (x.1, x.2 + chunk)
  else return none

theorem zeroStep_spec {chunk : Nat} (hc : 0 < chunk) (x : ShrinkState × Nat) :
    Yields (p.zeroStep chunk x) fun r => ∀ y, r = some y → p.Turn x y := by
  unfold zeroStep
  split
  next hx =>
    dsimp only
    split
    · refine (p.tryAccept_spec _ x.1).bind fun r hr => Theory.yields_ok fun y hy => ?_
      rw [← Option.some.inj hy]
      cases hb : r.1 with
      | true =>
        obtain ⟨hs, hlt, hspent⟩ := hr.1 hb
        exact .spent hs hlt hspent
      | false =>
        obtain ⟨hs, hcur⟩ := hr.2 hb
        exact .kept hs hcur hx.1 (Nat.lt_add_of_pos_right hc)
    · refine Theory.yields_ok fun y hy => ?_
      rw [← Option.some.inj hy]
      exact .kept (.refl p x.1) rfl hx.1 (Nat.lt_add_of_pos_right hc)
  next => exact Theory.yields_ok fun y hy => by cases hy

def zeroPass (chunk : Nat) (hc : 0 < chunk) : Loop Halt (ShrinkState × Nat) where
  step := p.zeroStep chunk
  rank := p.rank
  decreases := fun x y h => (p.zeroStep_spec hc x _ h y rfl).lower

/-! ### Chunk sizes, coarse to fine -/

/-- One turn of the loop over chunk sizes, around either chunked pass. -/
def chunkStep (pass : (chunk : Nat) → 0 < chunk → Loop Halt (ShrinkState × Nat))
    (x : ShrinkState × Nat) : Except Halt (Option (ShrinkState × Nat)) :=
  if h : 1 ≤ x.2 ∧ x.1.runsUsed < p.maxRuns then do
    let y ← (pass x.2 h.1).run (x.1, 0)
    return some (y.1, x.2 / 2)
  else return none

theorem chunkStep_yields (pass : (chunk : Nat) → 0 < chunk → Loop Halt (ShrinkState × Nat))
    (x : ShrinkState × Nat) :
    Yields (p.chunkStep pass x) fun r => ∀ y, r = some y → y.2 < x.2 := by
  unfold chunkStep
  split
  next h =>
    refine Yields.bind (P := fun _ => True) (fun _ _ => trivial) fun z _ => ?_
    refine Theory.yields_ok fun y hy => ?_
    rw [← Option.some.inj hy]
    exact Nat.div_lt_self h.1 (by decide)
  next => exact Theory.yields_ok fun y hy => by cases hy

def chunks (pass : (chunk : Nat) → 0 < chunk → Loop Halt (ShrinkState × Nat)) :
    Loop Halt (ShrinkState × Nat) where
  step := p.chunkStep pass
  rank := fun x => (x.2, 0)
  decreases := fun x y h => .left _ _ (p.chunkStep_yields pass x _ h y rfl)

/-- A chunked pass over the current tape. -/
def chunked (pass : (chunk : Nat) → 0 < chunk → Loop Halt (ShrinkState × Nat))
    (s : ShrinkState) : Except Halt ShrinkState := do
  let x ← (p.chunks pass).run (s, max 1 (s.current.length / 2))
  return x.1

/-! ### Pass 2: value minimisation -/

/-- The draws that may replace `d`. -/
def replacements (d : Draw) : List Draw :=
  (descend d.value).attach.map fun v => d.lower v.1 (descend_le v.2)

/-- The first replacement that is accepted, if any. -/
def replaceFirst (index : Nat) : List Draw → ShrinkState → Except Halt ShrinkState
  | [], s => return s
  | d :: rest, s => do
    let candidate := s.current.take index ++ [d] ++ s.current.drop (index + 1)
    let r ← p.tryAccept candidate s
    if r.1 = true then return {r.2 with improved := true}
    else replaceFirst index rest r.2

theorem replaceFirst_spec (index : Nat) (ds : List Draw) (s : ShrinkState) :
    Yields (p.replaceFirst index ds s) fun s' => p.Shrinks s s' ∧
      (s'.current = s.current ∨ s.runsUsed < p.maxRuns ∧ s.runsUsed < s'.runsUsed) := by
  induction ds generalizing s with
  | nil => exact Theory.yields_ok ⟨.refl p s, .inl rfl⟩
  | cons d rest ih =>
    refine (p.tryAccept_spec _ s).bind fun r hr => ?_
    cases hb : r.1 with
    | true =>
      obtain ⟨hs, hspent⟩ := hr.1 hb
      exact Theory.yields_ok ⟨hs, .inr hspent⟩
    | false =>
      obtain ⟨hs, hcur⟩ := hr.2 hb
      refine (ih r.2).mono fun s' ⟨hs', hmove⟩ => ⟨hs.trans hs', ?_⟩
      have hle := hs.spent
      rcases hmove with hc | hspent
      · exact .inl (hc.trans hcur)
      · exact .inr (by omega)

def valueStep (x : ShrinkState × Nat) : Except Halt (Option (ShrinkState × Nat)) :=
  if h : x.2 < x.1.current.length ∧ x.1.runsUsed < p.maxRuns then
    let draw := x.1.current.get ⟨x.2, h.1⟩
    if draw.value ≠ 0 then do
      let s ← p.replaceFirst x.2 (replacements draw) x.1
      return some (s, x.2 + 1)
    else return some (x.1, x.2 + 1)
  else return none

theorem valueStep_spec (x : ShrinkState × Nat) :
    Yields (p.valueStep x) fun r => ∀ y, r = some y → p.Turn x y := by
  unfold valueStep
  split
  next hx =>
    dsimp only
    split
    · refine (p.replaceFirst_spec x.2 _ x.1).bind fun s hs => Theory.yields_ok fun y hy => ?_
      rw [← Option.some.inj hy]
      obtain ⟨hshrinks, hc | ⟨hb, hspent⟩⟩ := hs
      · exact .kept hshrinks hc hx.1 (Nat.lt_succ_self _)
      · exact .spent hshrinks hb hspent
    · refine Theory.yields_ok fun y hy => ?_
      rw [← Option.some.inj hy]
      exact .kept (.refl p x.1) rfl hx.1 (Nat.lt_succ_self _)
  next => exact Theory.yields_ok fun y hy => by cases hy

def valuePass : Loop Halt (ShrinkState × Nat) where
  step := p.valueStep
  rank := p.rank
  decreases := fun x y h => (p.valueStep_spec x _ h y rfl).lower

/-! ### Sweeps -/

/-- The three passes, once. -/
def sweep (s : ShrinkState) : Except Halt ShrinkState := do
  let s ← p.chunked p.deletePass s
  let s ← p.chunked p.zeroPass s
  let x ← p.valuePass.run (s, 0)
  return x.1

/-- A loop whose turns shrink shrinks. -/
theorem run_shrinks (l : Loop Halt (ShrinkState × Nat))
    (h : ∀ x, Yields (l.step x) fun r => ∀ y, r = some y → p.Shrinks x.1 y.1)
    (x : ShrinkState × Nat) : Yields (l.run x) fun y => p.Shrinks x.1 y.1 := by
  have hrun := l.run_yields (fun y => p.Shrinks x.1 y.1)
    (fun y hy => (h y).mono fun r hr z hz => hy.trans (hr z hz)) x (.refl p x.1)
  exact hrun.mono fun _ hy => hy.1

theorem chunked_shrinks (pass : (chunk : Nat) → 0 < chunk → Loop Halt (ShrinkState × Nat))
    (h : ∀ chunk hc x, Yields ((pass chunk hc).step x) fun r => ∀ y, r = some y →
      p.Shrinks x.1 y.1) (s : ShrinkState) : Yields (p.chunked pass s) (p.Shrinks s) := by
  refine (p.run_shrinks (p.chunks pass) (fun x => ?_) _).bind fun x hx => Theory.yields_ok hx
  show Yields (p.chunkStep pass x) _
  unfold chunkStep
  split
  next hx =>
    refine (p.run_shrinks (pass x.2 hx.1) (h x.2 hx.1) (x.1, 0)).bind fun z hz => ?_
    refine Theory.yields_ok fun y hy => ?_
    rw [← Option.some.inj hy]
    exact hz
  next => exact Theory.yields_ok fun y hy => by cases hy

theorem sweep_shrinks (s : ShrinkState) : Yields (p.sweep s) (p.Shrinks s) := by
  have hdelete := p.chunked_shrinks p.deletePass fun chunk hc x =>
    (p.deleteStep_spec hc x).mono fun r hr y hy => (hr y hy).shrinks
  have hzero := p.chunked_shrinks p.zeroPass fun chunk hc x =>
    (p.zeroStep_spec hc x).mono fun r hr y hy => (hr y hy).shrinks
  have hvalue := p.run_shrinks p.valuePass fun x =>
    (p.valueStep_spec x).mono fun r hr y hy => (hr y hy).shrinks
  refine (hdelete s).bind fun s₁ h₁ => (hzero s₁).bind fun s₂ h₂ => ?_
  exact (hvalue (s₂, 0)).bind fun x h₃ => Theory.yields_ok ((h₁.trans h₂).trans h₃)

def sweepStep (s : ShrinkState) : Except Halt (Option ShrinkState) :=
  if s.improved = true ∧ s.runsUsed < p.maxRuns then do
    let s' ← p.sweep {s with improved := false}
    return some s'
  else return none

theorem sweepStep_spec (s : ShrinkState) : Yields (p.sweepStep s) fun r => ∀ s', r = some s' →
    p.Shrinks s s' ∧ s.improved = true ∧ s.runsUsed < p.maxRuns ∧
      (s'.improved = true → s.runsUsed < s'.runsUsed) := by
  unfold sweepStep
  split
  next h =>
    refine (p.sweep_shrinks {s with improved := false}).bind fun s' hs => ?_
    refine Theory.yields_ok fun t ht => ?_
    rw [← Option.some.inj ht]
    have hgained : s'.improved = true → s.runsUsed < s'.runsUsed := by
      intro hi
      rcases hs.gained hi with hf | hlt
      · cases hf
      · exact hlt
    exact ⟨⟨hs.spent, hs.budget, hs.key_le, hs.kept, fun _ => .inl h.1⟩, h.1, h.2, hgained⟩
  next => exact Theory.yields_ok fun s' hs' => by cases hs'

/-- Sweep until nothing improves or the budget is spent. -/
def sweeps : Loop Halt ShrinkState where
  step := p.sweepStep
  rank := fun s => (p.maxRuns - s.runsUsed, if s.improved = true then 1 else 0)
  decreases := by
    intro s s' h
    obtain ⟨hs, hi, hb, hgained⟩ := p.sweepStep_spec s _ h s' rfl
    have hspent := hs.spent
    cases hi' : s'.improved with
    | true =>
      have hlt := hgained hi'
      exact .left _ _ (by omega)
    | false =>
      rcases Nat.eq_or_lt_of_le (Nat.sub_le_sub_left hspent p.maxRuns) with he | hlt
      · rw [he, hi]
        exact .right _ (by decide)
      · exact .left _ _ hlt

theorem sweeps_shrinks (s : ShrinkState) : Yields (p.sweeps.run s) (p.Shrinks s) := by
  have hrun := p.sweeps.run_yields (p.Shrinks s)
    (fun s' hs' => (p.sweepStep_spec s').mono fun r hr t ht => hs'.trans (hr t ht).1) s (.refl p s)
  exact hrun.mono fun _ h => h.1

/-! ### Everything returns -/

section Returns
variable (h : ∀ c, Returns (p.execute c))
include h

theorem deletePass_returns (chunk : Nat) (hc : 0 < chunk) (x : ShrinkState × Nat) :
    Returns ((p.deletePass chunk hc).run x) := by
  refine Loop.run_returns _ (fun y => ?_) x
  show Returns (p.deleteStep chunk y)
  unfold deleteStep
  split
  · dsimp only
    split
    · exact ⟨_, rfl⟩
    · exact (p.tryAccept_returns h _ y.1).bind fun _ => ⟨_, rfl⟩
  · exact ⟨_, rfl⟩

theorem zeroPass_returns (chunk : Nat) (hc : 0 < chunk) (x : ShrinkState × Nat) :
    Returns ((p.zeroPass chunk hc).run x) := by
  refine Loop.run_returns _ (fun y => ?_) x
  show Returns (p.zeroStep chunk y)
  unfold zeroStep
  split
  · dsimp only
    split
    · exact (p.tryAccept_returns h _ y.1).bind fun _ => ⟨_, rfl⟩
    · exact ⟨_, rfl⟩
  · exact ⟨_, rfl⟩

theorem replaceFirst_returns (index : Nat) (ds : List Draw) (s : ShrinkState) :
    Returns (p.replaceFirst index ds s) := by
  induction ds generalizing s with
  | nil => exact ⟨_, rfl⟩
  | cons d rest ih =>
    refine (p.tryAccept_returns h _ s).bind fun r => ?_
    split
    · exact ⟨_, rfl⟩
    · exact ih r.2

theorem valuePass_returns (x : ShrinkState × Nat) : Returns (p.valuePass.run x) := by
  refine Loop.run_returns _ (fun y => ?_) x
  show Returns (p.valueStep y)
  unfold valueStep
  split
  · dsimp only
    split
    · exact (p.replaceFirst_returns h _ _ y.1).bind fun _ => ⟨_, rfl⟩
    · exact ⟨_, rfl⟩
  · exact ⟨_, rfl⟩

omit h in
theorem chunked_returns (pass : (chunk : Nat) → 0 < chunk → Loop Halt (ShrinkState × Nat))
    (hp : ∀ chunk hc x, Returns ((pass chunk hc).run x)) (s : ShrinkState) :
    Returns (p.chunked pass s) := by
  refine (Loop.run_returns _ (fun x => ?_) _).bind fun _ => ⟨_, rfl⟩
  show Returns (p.chunkStep pass x)
  unfold chunkStep
  split
  next hx => exact (hp x.2 hx.1 _).bind fun _ => ⟨_, rfl⟩
  next => exact ⟨_, rfl⟩

theorem sweeps_returns (s : ShrinkState) : Returns (p.sweeps.run s) := by
  refine Loop.run_returns _ (fun s => ?_) s
  show Returns (p.sweepStep s)
  unfold sweepStep
  split
  · refine Returns.bind ?_ fun _ => ⟨_, rfl⟩
    refine (p.chunked_returns p.deletePass (p.deletePass_returns h) _).bind fun s₁ => ?_
    refine (p.chunked_returns p.zeroPass (p.zeroPass_returns h) s₁).bind fun s₂ => ?_
    exact (p.valuePass_returns h (s₂, 0)).bind fun _ => ⟨_, rfl⟩
  · exact ⟨_, rfl⟩

end Returns

end Shrinker

/-! ### The call -/

/-- The default: an error of the same type as the original's. -/
def sameType (error : PyException) (candidate : RunResult) : Bool :=
  candidate.outcome == .error && candidate.error.any (·.type.isSubclass error.type)

/-- The predicate in use. -/
def interestingOr (interesting : Option (RunResult → Bool)) (error : PyException) :
    RunResult → Bool :=
  interesting.getD (sameType error)

def shrink (execute : List Draw → Except Halt RunResult) (failure : RunResult) (maxRuns : Nat)
    (interesting : Option (RunResult → Bool)) : Except Halt ShrinkResult :=
  match failure.error with
  | none => .error (.raised ⟨valueError, "shrink() needs a failing RunResult"⟩)
  | some error => do
    let p : Shrinker := ⟨execute, interestingOr interesting error, maxRuns⟩
    let s ← p.sweeps.run ⟨failure.tape, failure, 0, true⟩
    return ⟨s.current, s.result, s.runsUsed, failure.tape.length, deviations failure.tape⟩

/-- What shrinking guarantees of any program: the budget is kept, the tape is no
larger and is the result's own, and the result reproduces the failure. -/
structure ShrinkResult.Sound (sr : ShrinkResult) (execute : List Draw → Except Halt RunResult)
    (failure : RunResult) (maxRuns : Nat) (accepts : RunResult → Bool) : Prop where
  budget : sr.runsUsed ≤ maxRuns
  key_le : key sr.tape ≤ key failure.tape
  recorded : sr.result.tape = sr.tape
  reproduces : sr.result = failure ∨
    (accepts sr.result = true ∧ ∃ candidate, execute candidate = .ok sr.result)

theorem shrink_spec (execute : List Draw → Except Halt RunResult) (failure : RunResult)
    (maxRuns : Nat) (interesting : Option (RunResult → Bool)) (error : PyException)
    (he : failure.error = some error) :
    Yields (shrink execute failure maxRuns interesting) fun sr =>
      sr.Sound execute failure maxRuns (interestingOr interesting error) := by
  unfold shrink
  rw [he]
  dsimp only
  refine Yields.bind (Shrinker.sweeps_shrinks _ _) fun s hs => Theory.yields_ok ?_
  have hkept := hs.kept
  refine ⟨hs.budget (Nat.zero_le _), hs.key_le, ?_, ?_⟩
  · rcases hkept with ⟨hc, hr⟩ | hrep
    · show s.result.tape = s.current
      rw [hr, hc]
    · exact hrep.recorded
  · rcases hkept with ⟨_, hr⟩ | hrep
    · exact .inl hr
    · exact .inr ⟨hrep.interesting, hrep.executed⟩

theorem shrink_returns (execute : List Draw → Except Halt RunResult)
    (h : ∀ c, Returns (execute c)) (failure : RunResult) (maxRuns : Nat)
    (interesting : Option (RunResult → Bool)) (error : PyException)
    (he : failure.error = some error) : Returns (shrink execute failure maxRuns interesting) := by
  unfold shrink
  rw [he]
  dsimp only
  exact Returns.bind (Shrinker.sweeps_returns ⟨execute, _, maxRuns⟩ h _) fun _ => ⟨_, rfl⟩

namespace DecisionTree

/-- A result recorded from the tree: what it returned on some fresh tape. -/
def Recorded (tree : DecisionTree Report) (r : RunResult) : Prop :=
  ∃ (S : RandomSource) (t : Tape S), t.draws = [] ∧ tree.result r.scheduler t = .ok r

theorem Recorded.path {tree : DecisionTree Report} {r : RunResult} (h : tree.Recorded r) :
    tree.Path r.tape r.report := by
  obtain ⟨S, t, ht, hr⟩ := h
  unfold result at hr
  cases hrun : tree.run t with
  | error e => rw [hrun] at hr; cases hr
  | ok a =>
    rw [hrun] at hr
    obtain ⟨ds, hp, hds⟩ := tree.run_path t a.2 a.1 hrun
    rw [ht, List.nil_append] at hds
    rw [← Except.ok.inj hr]
    show tree.Path a.2.draws a.1
    rw [hds]
    exact hp

/-- **Shrinking is sound and budgeted.** Shrinking a failure recorded from a tree
returns within the budget a result as `ShrinkResult.Sound` says, and the strict
replay of its tape consumes it exactly and ends as that result did. -/
theorem shrink_sound (R : RandomSource) (tree : DecisionTree Report) (failure : RunResult)
    (hrec : tree.Recorded failure) (error : PyException) (he : failure.error = some error)
    (maxRuns : Nat) (interesting : Option (RunResult → Bool)) :
    ∃ sr, shrink (tree.replayPlan R failure.scheduler) failure maxRuns interesting = .ok sr ∧
      sr.Sound (tree.replayPlan R failure.scheduler) failure maxRuns
        (interestingOr interesting error) ∧
      ∃ u, tree.run (Tape.replayStrict sr.tape : Tape R) = .ok (sr.result.report, u) ∧
        u.replayExact = true ∧ u.draws = sr.tape := by
  obtain ⟨sr, hsr⟩ := shrink_returns (tree.replayPlan R failure.scheduler)
    (fun c => by
      obtain ⟨_, _, _, h⟩ := tree.replayPlan_ok R failure.scheduler c
      exact ⟨_, h⟩) failure maxRuns interesting error he
  have hsound := shrink_spec _ failure maxRuns interesting error he sr hsr
  refine ⟨sr, hsr, hsound, run_strict R ?_⟩
  rw [← hsound.recorded]
  rcases hsound.reproduces with hf | ⟨_, candidate, hc⟩
  · rw [hf]
    exact hrec.path
  · obtain ⟨ds, report, hp, hok⟩ := tree.replayPlan_ok R failure.scheduler candidate
    rw [← Except.ok.inj (hok.symm.trans hc)]
    exact hp

/-- A program that fails once its second flip is heads. -/
def twoFlips : DecisionTree Report :=
  .node "flip" 2 Nat.two_pos fun _ => .node "flip" 2 Nat.two_pos fun second =>
    .leaf ⟨if second.val = 1 then some ⟨valueError, "heads"⟩ else none, [], []⟩

/-- Its failure after two heads. -/
def twoHeads : RunResult :=
  Report.result ⟨some ⟨valueError, "heads"⟩, [], []⟩ none
    [⟨"flip", 1, 2, Nat.one_lt_two⟩, ⟨"flip", 1, 2, Nat.one_lt_two⟩] .random

theorem shrink_sound_twoHeads :
    ∃ sr, shrink (twoFlips.replayPlan zeroSource .random) twoHeads 10 none = .ok sr ∧
      sr.Sound (twoFlips.replayPlan zeroSource .random) twoHeads 10
        (interestingOr none ⟨valueError, "heads"⟩) ∧
      ∃ u, twoFlips.run (Tape.replayStrict sr.tape : Tape zeroSource) =
          .ok (sr.result.report, u) ∧ u.replayExact = true ∧ u.draws = sr.tape :=
  shrink_sound zeroSource twoFlips twoHeads
    ⟨zeroSource, Tape.replayStrict twoHeads.tape, rfl, rfl⟩ ⟨valueError, "heads"⟩ rfl 10 none

end DecisionTree

end Simloom
