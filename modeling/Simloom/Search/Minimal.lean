import Simloom.Search.Shrink

/-! Shrinking with budget left over ends at a local minimum.

A sweep that improves nothing has worked on one tape from beginning to end
(`Quiet`), so whatever its loops tried, they tried against that tape. Each pass is
a loop over indices, and `run_visits` says once what such a loop has tried when it
ends with budget left: every index. The deletion pass does single draws at its last
chunk size, the value pass at every index, and the last sweep improved nothing. -/
namespace Simloom
open Theory (Loop Yields Returns)

/-- Executing the candidate shows the failure on a tape smaller than `tape`. -/
def Improves (execute : List Draw → Except Halt RunResult) (accepts : RunResult → Bool)
    (tape candidate : List Draw) : Prop :=
  ∃ outcome, execute candidate = .ok outcome ∧ accepts outcome = true ∧
    key outcome.tape < key tape

/-- No single-draw edit improves the tape: neither a deletion that leaves a draw,
nor a nonzero value lowered to zero, to its half or by one. -/
structure LocalMinimum (execute : List Draw → Except Halt RunResult)
    (accepts : RunResult → Bool) (tape : List Draw) : Prop where
  deletion : ∀ i < tape.length, tape.eraseIdx i ≠ [] →
    ¬Improves execute accepts tape (tape.eraseIdx i)
  replacement : ∀ i d, tape[i]? = some d → ∀ v, (h : v < d.value) →
    v = 0 ∨ v = d.value / 2 ∨ v = d.value - 1 →
    ¬Improves execute accepts tape (tape.set i (d.lower v (Nat.le_of_lt h)))

/-- The descent tries zero, the half and the predecessor. -/
theorem mem_descend {value v : Nat} (hv : v < value)
    (h : v = 0 ∨ v = value / 2 ∨ v = value - 1) : v ∈ descend value := by
  unfold descend
  rcases h with rfl | rfl | rfl
  · simp
  · by_cases hz : value / 2 = 0
    · simp [hz]
    · have hne : value / 2 ≠ value := by omega
      simp [hz, hne]
  · have hne : value - 1 ≠ value := by omega
    by_cases hmem : value - 1 ∈ [0] ++ if value / 2 ≠ 0 ∧ value / 2 ≠ value then [value / 2] else []
    · exact List.mem_append_left _ hmem
    · exact List.mem_append_right _ (List.mem_ite_nil_right.mpr ⟨⟨hmem, hne⟩, by simp⟩)

namespace Shrinker
variable (p : Shrinker)

/-! ### What a sweep that improves nothing leaves alone -/

/-- Budget is only spent, and if no improvement is on record at the end, there was
none before and the tape is the same. -/
structure Quiet (s s' : ShrinkState) : Prop where
  spent : s.runsUsed ≤ s'.runsUsed
  calm : s'.improved = false → s.improved = false ∧ s'.current = s.current

theorem Quiet.refl (s : ShrinkState) : Quiet s s := ⟨Nat.le_refl _, fun h => ⟨h, rfl⟩⟩

theorem Quiet.trans {a b c : ShrinkState} (h : Quiet a b) (h' : Quiet b c) : Quiet a c where
  spent := Nat.le_trans h.spent h'.spent
  calm := by
    intro hc
    obtain ⟨hb, hcb⟩ := h'.calm hc
    obtain ⟨ha, hba⟩ := h.calm hb
    exact ⟨ha, hcb.trans hba⟩

/-- The search ended with this state, its budget not spent and nothing improved. -/
structure Settled (s : ShrinkState) : Prop where
  left : s.runsUsed < p.maxRuns
  calm : s.improved = false

variable {p}

theorem Settled.of_quiet {s s' : ShrinkState} (h : p.Settled s') (hq : Quiet s s') :
    p.Settled s := ⟨Nat.lt_of_le_of_lt hq.spent h.left, (hq.calm h.calm).1⟩

variable (p)

/-- An attempt that is not accepted changes nothing, and if the budget was not the
reason, the candidate does not improve the tape. -/
theorem tryAccept_settles (candidate : List Draw) (s : ShrinkState) :
    Yields (p.tryAccept candidate s) fun r => Quiet s {r.2 with improved := true} ∧
      (r.1 = false → Quiet s r.2 ∧ (r.2.runsUsed < p.maxRuns →
        ¬Improves p.execute p.interesting s.current candidate)) := by
  intro r h
  rcases p.tryAccept_cases h with ⟨outcome, he, -, hr⟩ | ⟨hb, rfl⟩
  · split at hr
    next =>
      rw [hr]
      exact ⟨⟨Nat.le_succ _, by simp⟩, by simp⟩
    next hi =>
      rw [hr]
      refine ⟨⟨Nat.le_succ _, by simp⟩, fun _ => ⟨⟨Nat.le_succ _, fun hc => ⟨hc, rfl⟩⟩, ?_⟩⟩
      rintro - ⟨outcome', he', hi'⟩
      rw [← Except.ok.inj (he.symm.trans he')] at hi'
      exact hi hi'
  · exact ⟨⟨Nat.le_refl _, by simp⟩, fun _ => ⟨.refl s, fun hlt => absurd hlt hb⟩⟩

/-! ### A loop over the indices -/

/-- A turn from `x` to `y`: unless it improved something or the budget ran out, it
tried every index it passed. -/
structure Visits (tried : List Draw → Nat → Prop) (x y : ShrinkState × Nat) : Prop where
  quiet : Quiet x.1 y.1
  tries : p.Settled y.1 → ∀ i, x.2 ≤ i → i < y.2 → i < x.1.current.length → tried x.1.current i

/-- A turn, or the end of the tape or of the budget. -/
def Explores (tried : List Draw → Nat → Prop) (x : ShrinkState × Nat) :
    Option (ShrinkState × Nat) → Prop
  | some y => p.Visits tried x y
  | none => x.1.runsUsed < p.maxRuns → x.1.current.length ≤ x.2

variable {p}

theorem explores_none {tried : List Draw → Nat → Prop} {x : ShrinkState × Nat}
    (h : ¬(x.2 < x.1.current.length ∧ x.1.runsUsed < p.maxRuns)) : p.Explores tried x none :=
  fun hb => Nat.le_of_not_lt fun hlt => h ⟨hlt, hb⟩

theorem Visits.trans {tried : List Draw → Nat → Prop} {x y z : ShrinkState × Nat}
    (h : p.Visits tried x y) (h' : p.Visits tried y z) : p.Visits tried x z := by
  refine ⟨h.quiet.trans h'.quiet, fun hset i hi hlt hlen => ?_⟩
  have hset' := hset.of_quiet h'.quiet
  have hcur := (h.quiet.calm hset'.calm).2
  by_cases hiy : i < y.2
  · exact h.tries hset' i hi hiy hlen
  · have htried := h'.tries hset i (Nat.le_of_not_lt hiy) hlt
    rw [hcur] at htried
    exact htried hlen

/-- A loop over the indices that ends quietly with budget left has tried them all. -/
theorem run_explores {tried : List Draw → Nat → Prop} (l : Loop Halt (ShrinkState × Nat))
    (turn : ∀ x, Yields (l.step x) (p.Explores tried x)) (s : ShrinkState) :
    Yields (l.run (s, 0)) fun y =>
      Quiet s y.1 ∧ (p.Settled y.1 → ∀ i < s.current.length, tried s.current i) := by
  have hrun := l.run_yields (fun y => p.Visits tried (s, 0) y)
    (fun y hy => (turn y).mono fun r hr z hz => ?_) (s, 0)
    ⟨.refl s, fun _ i _ hi => absurd hi (Nat.not_lt_zero i)⟩
  · refine hrun.mono fun y ⟨hvisits, hend⟩ => ⟨hvisits.quiet, fun hset i hi => ?_⟩
    have hcur := (hvisits.quiet.calm hset.calm).2
    have hlen : y.1.current.length ≤ y.2 := turn y none hend hset.left
    rw [hcur] at hlen
    exact hvisits.tries hset i (Nat.zero_le i) (Nat.lt_of_lt_of_le hi hlen) hi
  · rw [hz] at hr
    exact hy.trans hr

variable (p)

/-! ### Deletion -/

/-- Deleting the draw at the index does not improve the tape. -/
def Undeletable (tape : List Draw) (i : Nat) : Prop :=
  tape.eraseIdx i ≠ [] → ¬Improves p.execute p.interesting tape (tape.eraseIdx i)

theorem deleteStep_explores (chunk : Nat) (x : ShrinkState × Nat) :
    Yields (p.deleteStep chunk x)
      (p.Explores (fun tape i => chunk = 1 → p.Undeletable tape i) x) := by
  unfold deleteStep
  split
  next hx =>
    dsimp only
    split
    next hempty =>
      refine Theory.yields_ok ⟨.refl _, fun _ i hi hlt _ hchunk hne => ?_⟩
      subst hchunk
      obtain rfl : i = x.2 := by omega
      rw [List.eraseIdx_eq_take_drop_succ] at hne
      exact absurd hempty hne
    next =>
      refine (p.tryAccept_settles _ x.1).bind fun r hr => Theory.yields_ok ?_
      cases hb : r.1 with
      | true => exact ⟨hr.1, fun hset => by cases hset.calm⟩
      | false =>
        obtain ⟨hquiet, hrejects⟩ := hr.2 hb
        refine ⟨hquiet, fun hset i hi (hlt : i < x.2 + chunk) _ hchunk _ => ?_⟩
        subst hchunk
        obtain rfl : i = x.2 := by omega
        rw [List.eraseIdx_eq_take_drop_succ]
        exact hrejects hset.left
  next hx => exact Theory.yields_ok (explores_none hx)

/-! ### Zeroing -/

theorem zeroStep_explores (chunk : Nat) (x : ShrinkState × Nat) :
    Yields (p.zeroStep chunk x) (p.Explores (fun _ _ => True) x) := by
  unfold zeroStep
  split
  next hx =>
    dsimp only
    split
    · refine (p.tryAccept_settles _ x.1).bind fun r hr => Theory.yields_ok ?_
      cases hb : r.1 with
      | true => exact ⟨hr.1, fun _ _ _ _ _ => trivial⟩
      | false => exact ⟨(hr.2 hb).1, fun _ _ _ _ _ => trivial⟩
    · exact Theory.yields_ok ⟨.refl _, fun _ _ _ _ _ => trivial⟩
  next hx => exact Theory.yields_ok (explores_none hx)

/-! ### Values -/

/-- No replacement of the draw at the index improves the tape. -/
def Irreplaceable (tape : List Draw) (i : Nat) : Prop :=
  ∀ d, tape[i]? = some d → d.value ≠ 0 → ∀ d' ∈ replacements d,
    ¬Improves p.execute p.interesting tape (tape.take i ++ [d'] ++ tape.drop (i + 1))

/-- Replacements that are all refused with budget left were all tried. -/
theorem replaceFirst_settles (index : Nat) (ds : List Draw) (s : ShrinkState) :
    Yields (p.replaceFirst index ds s) fun s' => Quiet s s' ∧ (p.Settled s' → ∀ d ∈ ds,
      ¬Improves p.execute p.interesting s.current
        (s.current.take index ++ [d] ++ s.current.drop (index + 1))) := by
  induction ds generalizing s with
  | nil => exact Theory.yields_ok ⟨.refl s, fun _ d hd => by cases hd⟩
  | cons d rest ih =>
    refine (p.tryAccept_settles _ s).bind fun r hr => ?_
    cases hb : r.1 with
    | true => exact Theory.yields_ok ⟨hr.1, fun hset => by cases hset.calm⟩
    | false =>
      obtain ⟨hquiet, hrejects⟩ := hr.2 hb
      refine (ih r.2).mono fun s' ⟨hquiet', hrest⟩ => ⟨hquiet.trans hquiet', fun hset => ?_⟩
      have hset' := hset.of_quiet hquiet'
      rw [(hquiet.calm hset'.calm).2] at hrest
      exact List.forall_mem_cons.mpr ⟨hrejects hset'.left, hrest hset⟩

theorem valueStep_explores (x : ShrinkState × Nat) :
    Yields (p.valueStep x) (p.Explores p.Irreplaceable x) := by
  unfold valueStep
  split
  next hx =>
    have hget : x.1.current[x.2]? = some (x.1.current.get ⟨x.2, hx.1⟩) :=
      List.getElem?_eq_getElem hx.1
    dsimp only
    split
    next hnonzero =>
      refine (p.replaceFirst_settles x.2 _ x.1).bind fun s ⟨hquiet, htried⟩ =>
        Theory.yields_ok ⟨hquiet, fun hset i hi (hlt : i < x.2 + 1) _ d hd _ => ?_⟩
      obtain rfl : i = x.2 := by omega
      rw [hget] at hd
      rw [← Option.some.inj hd]
      exact htried hset
    next hzero =>
      refine Theory.yields_ok ⟨.refl _, fun _ i hi (hlt : i < x.2 + 1) _ d hd hd0 => ?_⟩
      obtain rfl : i = x.2 := by omega
      rw [hget] at hd
      rw [← Option.some.inj hd] at hd0
      exact absurd hd0 hzero
  next hx => exact Theory.yields_ok (explores_none hx)

/-! ### Chunk sizes -/

variable {p}

/-- A chunked pass that ends quietly with budget left came down to chunks of one
draw, and so tried every index. -/
theorem chunked_explores {tried : Nat → List Draw → Nat → Prop}
    (pass : (chunk : Nat) → 0 < chunk → Loop Halt (ShrinkState × Nat))
    (turn : ∀ chunk hc x, Yields ((pass chunk hc).step x) (p.Explores (tried chunk) x))
    (s : ShrinkState) : Yields (p.chunked pass s) fun s' =>
      Quiet s s' ∧ (p.Settled s' → ∀ i < s.current.length, tried 1 s.current i) := by
  have hrun := (p.chunks pass).run_yields
    (fun x => Quiet s x.1 ∧ (p.Settled x.1 → x.2 = 0 →
      ∀ i < s.current.length, tried 1 s.current i)) (fun x hx => ?_)
    (s, max 1 (s.current.length / 2)) ⟨.refl s, fun _ hz => by simp at hz⟩
  · refine hrun.bind fun x ⟨⟨hquiet, htried⟩, hend⟩ => Theory.yields_ok ⟨hquiet, fun hset => ?_⟩
    refine htried hset ?_
    by_contra hne
    have hx : 1 ≤ x.2 ∧ x.1.runsUsed < p.maxRuns := ⟨Nat.one_le_iff_ne_zero.mpr hne, hset.left⟩
    have hstep : p.chunkStep pass x = .ok none := hend
    rw [chunkStep, dif_pos hx] at hstep
    cases hpass : (pass x.2 hx.1).run (x.1, 0) with
    | error e => rw [hpass] at hstep; cases hstep
    | ok y => rw [hpass] at hstep; cases hstep
  · show Yields (p.chunkStep pass x) _
    unfold chunkStep
    split
    next h =>
      refine (run_explores (pass x.2 h.1) (turn x.2 h.1) x.1).bind fun y ⟨hquiet, htried⟩ =>
        Theory.yields_ok fun z hz => ?_
      rw [← Option.some.inj hz]
      refine ⟨hx.1.trans hquiet, fun hset (hhalf : x.2 / 2 = 0) => ?_⟩
      have hone : x.2 = 1 := by omega
      rw [hone, (hx.1.calm (hset.of_quiet hquiet).calm).2] at htried
      exact htried hset
    next => exact Theory.yields_ok fun y hy => by cases hy

/-! ### Sweeps -/

variable (p)

/-- What a sweep that improves nothing has found out. -/
structure Minimal (tape : List Draw) : Prop where
  undeletable : ∀ i < tape.length, p.Undeletable tape i
  irreplaceable : ∀ i < tape.length, p.Irreplaceable tape i

theorem sweep_settles (s : ShrinkState) :
    Yields (p.sweep s) fun s' => Quiet s s' ∧ (p.Settled s' → p.Minimal s.current) := by
  refine (chunked_explores p.deletePass (fun chunk _ => p.deleteStep_explores chunk) s).bind
    fun s₁ ⟨hq₁, h₁⟩ => ?_
  refine (chunked_explores p.zeroPass (fun chunk _ => p.zeroStep_explores chunk) s₁).bind
    fun s₂ ⟨hq₂, _⟩ => ?_
  refine (run_explores p.valuePass p.valueStep_explores s₂).bind fun x ⟨hq₃, h₃⟩ =>
    Theory.yields_ok ⟨(hq₁.trans hq₂).trans hq₃, fun hset => ?_⟩
  have hset₂ := hset.of_quiet hq₃
  have hset₁ := hset₂.of_quiet hq₂
  have hcur := ((hq₁.trans hq₂).calm hset₂.calm).2
  rw [hcur] at h₃
  exact ⟨fun i hi => h₁ hset₁ i hi rfl, h₃ hset⟩

/-- Sweeping ends with the budget spent or with nothing left to improve. -/
theorem sweeps_minimal (s : ShrinkState) (hs : s.improved = true) :
    Yields (p.sweeps.run s) fun s' => s'.runsUsed < p.maxRuns → p.Minimal s'.current := by
  have hrun := p.sweeps.run_yields (fun s => p.Settled s → p.Minimal s.current)
    (fun s _ => ?_) s (fun hset => absurd (hs.symm.trans hset.calm) (by decide))
  · refine hrun.mono fun s' ⟨hmin, hend⟩ hleft => hmin ⟨hleft, ?_⟩
    by_contra hi
    have h : s'.improved = true ∧ s'.runsUsed < p.maxRuns := ⟨by simpa using hi, hleft⟩
    have hstep : p.sweepStep s' = .ok none := hend
    rw [sweepStep, if_pos h] at hstep
    cases hsweep : p.sweep {s' with improved := false} with
    | error e => rw [hsweep] at hstep; cases hstep
    | ok t => rw [hsweep] at hstep; cases hstep
  · show Yields (p.sweepStep s) _
    unfold sweepStep
    split
    next =>
      refine (p.sweep_settles _).bind fun t ⟨hquiet, hmin⟩ => Theory.yields_ok fun s' hs' => ?_
      rw [← Option.some.inj hs']
      intro hset
      rw [(hquiet.calm hset.calm).2]
      exact hmin hset
    next => exact Theory.yields_ok fun s' hs' => by cases hs'

theorem Minimal.localMinimum {p : Shrinker} {tape : List Draw} (h : p.Minimal tape) :
    LocalMinimum p.execute p.interesting tape where
  deletion := h.undeletable
  replacement := by
    intro i d hd v hv hcase
    have hi : i < tape.length := (List.getElem?_eq_some_iff.mp hd).1
    have hmem : d.lower v (Nat.le_of_lt hv) ∈ replacements d :=
      List.mem_map.mpr ⟨⟨v, mem_descend hv hcase⟩, List.mem_attach _ _, rfl⟩
    have htried := h.irreplaceable i hi d hd (Nat.ne_of_gt (Nat.lt_of_le_of_lt (Nat.zero_le v) hv))
      _ hmem
    rw [List.set_eq_take_append_cons_drop, if_pos hi]
    simpa using htried

end Shrinker

/-- **Budget left over means a local minimum.** Shrinking a failure of a tree
returns, and unless it used all its runs, no single-draw edit of the returned tape
replays, refilled with zeros, to a smaller tape that is still interesting. -/
theorem DecisionTree.shrink_localMinimum (R : RandomSource) (tree : DecisionTree Report)
    (failure : RunResult) (error : PyException) (he : failure.error = some error) (maxRuns : Nat)
    (interesting : Option (RunResult → Bool)) :
    ∃ sr, shrink (tree.replayPlan R failure.scheduler) failure maxRuns interesting = .ok sr ∧
      (sr.runsUsed < maxRuns → LocalMinimum (tree.replayPlan R failure.scheduler)
        (interestingOr interesting error) sr.tape) := by
  obtain ⟨sr, hsr⟩ := shrink_returns (tree.replayPlan R failure.scheduler)
    (fun c => by
      obtain ⟨_, _, _, h⟩ := tree.replayPlan_ok R failure.scheduler c
      exact ⟨_, h⟩) failure maxRuns interesting error he
  refine ⟨sr, hsr, ?_⟩
  unfold shrink at hsr
  rw [he] at hsr
  exact (Shrinker.sweeps_minimal ⟨_, interestingOr interesting error, maxRuns⟩ _ rfl).bind
    (fun s hs => Theory.yields_ok (P := fun sr : ShrinkResult => sr.runsUsed < maxRuns →
      LocalMinimum (tree.replayPlan R failure.scheduler) (interestingOr interesting error) sr.tape)
      fun hleft => (hs hleft).localMinimum) sr hsr

theorem DecisionTree.shrink_localMinimum_twoHeads :
    ∃ sr, shrink (twoFlips.replayPlan zeroSource .random) twoHeads 10 none = .ok sr ∧
      (sr.runsUsed < 10 → LocalMinimum (twoFlips.replayPlan zeroSource .random)
        (interestingOr none ⟨valueError, "heads"⟩) sr.tape) :=
  shrink_localMinimum zeroSource twoFlips twoHeads ⟨valueError, "heads"⟩ rfl 10 none

end Simloom
