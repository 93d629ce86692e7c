import Simloom.Search.Exact

/-! The whole result of a systematic search.

`outcome` says it as a function of the in-scope leaves in order: which of them are run when a
failure may end the search, what is reported of them, and whether the search claims to have
seen all. The search returns just that (`exploreSystematic_eq`); the failure it reports is the first
in the order of the schedules. -/
namespace Simloom
open Theory (Walks)

/-! ### Over a list of results -/

/-- Up to the first failure, and with it. -/
def upToFailure : List RunResult → List RunResult
  | [] => []
  | r :: rest => if r.error.isSome then [r] else r :: upToFailure rest

/-- What is listed of results that are numbered from `k` on. -/
def numberedFailures : Nat → List RunResult → List Failure
  | _, [] => []
  | k, r :: rest => (r.error.map fun e => e.failure k).toList ++ numberedFailures (k + 1) rest

/-- The first result that failed, with its number. -/
def firstFailing : Nat → List RunResult → Option (Nat × RunResult)
  | _, [] => none
  | k, r :: rest => if r.error.isSome then some (k, r) else firstFailing (k + 1) rest

namespace SystematicOptions

/-- The results that are seen, of those in scope. -/
def ran (o : SystematicOptions) (budget : Nat) (results : List RunResult) : List RunResult :=
  if o.stopOnFailure then upToFailure (results.take budget) else results.take budget

/-- Nothing in scope was left out. -/
def exhausts (o : SystematicOptions) (budget : Nat) (results : List RunResult) : Bool :=
  decide (results.length ≤ budget) &&
    !(o.stopOnFailure && (o.ran budget results).any fun r => r.error.isSome)

/-- The result of a search where `results` are those of the schedules in scope. -/
def outcome (o : SystematicOptions) (results : List RunResult) : SystematicResult :=
  let found := firstFailing 1 (o.ran o.maxSchedules results)
  { schedules := (o.ran o.maxSchedules results).length
    failures := numberedFailures 1 (o.ran o.maxSchedules results)
    maxDelays := o.maxDelays
    exhaustive := o.exhausts o.maxSchedules results
    firstFailureAt := found.map Prod.fst
    firstFailureDelays := found.map fun f => delays f.2.tape
    first := found.map Prod.snd }

theorem ran_nil (o : SystematicOptions) (budget : Nat) : o.ran budget [] = [] := by
  unfold ran
  rw [List.take_nil]
  split <;> rfl

theorem exhausts_nil (o : SystematicOptions) (budget : Nat) : o.exhausts budget [] = true := by
  simp [exhausts, ran_nil]

/-- A result that does not end the search. -/
theorem ran_cons (o : SystematicOptions) {r : RunResult} (h : ¬(r.error.isSome ∧ o.stopOnFailure = true))
    (budget : Nat) (rest : List RunResult) :
    o.ran (budget + 1) (r :: rest) = r :: o.ran budget rest ∧
      o.exhausts (budget + 1) (r :: rest) = o.exhausts budget rest := by
  have hran : o.ran (budget + 1) (r :: rest) = r :: o.ran budget rest := by
    unfold ran
    rw [List.take_succ_cons]
    split
    · next hstop =>
      rw [upToFailure, if_neg fun hfails => h ⟨hfails, hstop⟩]
    · rfl
  refine ⟨hran, ?_⟩
  have hquiet : (o.stopOnFailure && r.error.isSome) = false := by
    rw [Bool.and_comm, ← Bool.not_eq_true, Bool.and_eq_true]
    exact h
  unfold exhausts
  rw [hran, List.any_cons, Bool.and_or_distrib_left, hquiet, Bool.false_or, List.length_cons]
  simp

end SystematicOptions

/-! ### Recording -/

namespace Campaign

def recordAll (c : Campaign) (results : List RunResult) : Campaign := results.foldl record c

/-- Neither the plan nor the flag matters to what is recorded. -/
theorem record_with (c : Campaign) (r : RunResult) (plan : List Draw) (exhaustive : Bool) :
    ({c with plan := plan, exhaustive := exhaustive} : Campaign).record r =
      {c.record r with plan := plan, exhaustive := exhaustive} := by
  unfold record
  cases r.error with
  | none => rfl
  | some e => cases c.first <;> rfl

theorem recordAll_with (c : Campaign) (results : List RunResult) (plan : List Draw) (exhaustive : Bool) :
    ({c with plan := plan, exhaustive := exhaustive} : Campaign).recordAll results =
      {c.recordAll results with plan := plan, exhaustive := exhaustive} := by
  induction results generalizing c with
  | nil => rfl
  | cons r rest ih =>
    show recordAll (record _ r) rest = _
    rw [record_with, ih]
    rfl

theorem record_explored (c : Campaign) (r : RunResult) : (c.record r).explored = c.explored + 1 := by
  unfold record
  cases r.error with
  | none => rfl
  | some e => cases c.first <;> rfl

theorem record_listed (c : Campaign) (r : RunResult) :
    (c.record r).failures = c.failures ++ (r.error.map fun e => e.failure (c.explored + 1 : Nat)).toList := by
  unfold record
  cases r.error with
  | none => simp
  | some e => cases c.first <;> rfl

theorem recordAll_explored (c : Campaign) (results : List RunResult) :
    (c.recordAll results).explored = c.explored + results.length := by
  induction results generalizing c with
  | nil => rfl
  | cons r rest ih =>
    show (recordAll (c.record r) rest).explored = _
    rw [ih, record_explored, List.length_cons]
    omega

theorem recordAll_failures (c : Campaign) (results : List RunResult) :
    (c.recordAll results).failures = c.failures ++ numberedFailures (c.explored + 1) results := by
  induction results generalizing c with
  | nil => exact (List.append_nil _).symm
  | cons r rest ih =>
    show (recordAll (c.record r) rest).failures = _
    rw [ih, record_listed, record_explored, List.append_assoc]
    rfl

/-- What is kept of the first failure. -/
def found (c : Campaign) : Option RunResult × Option Nat × Option Nat := (c.first, c.firstAt, c.firstDelays)

theorem recordAll_found_again {c : Campaign} (h : c.first.isSome) (results : List RunResult) :
    (c.recordAll results).found = c.found := by
  induction results generalizing c with
  | nil => rfl
  | cons r rest ih =>
    have hfound : (c.record r).found = c.found := by
      unfold record
      cases r.error with
      | none => rfl
      | some e =>
        obtain ⟨first, hfirst⟩ := Option.isSome_iff_exists.mp h
        simp [found, hfirst]
    have hstill : (c.record r).first.isSome := by
      rw [show (c.record r).first = c.first from congrArg Prod.fst hfound]
      exact h
    show (recordAll (c.record r) rest).found = _
    rw [ih hstill, hfound]

theorem recordAll_found {c : Campaign} (h : c.found = (none, none, none)) (results : List RunResult) :
    (c.recordAll results).found =
      ((firstFailing (c.explored + 1) results).map Prod.snd,
        (firstFailing (c.explored + 1) results).map Prod.fst,
        (firstFailing (c.explored + 1) results).map fun f => delays f.2.tape) := by
  induction results generalizing c with
  | nil => exact h
  | cons r rest ih =>
    have hfirst : c.first = none := congrArg Prod.fst h
    show (recordAll (c.record r) rest).found = _
    cases herror : r.error with
    | none =>
      have hfound : (c.record r).found = (none, none, none) := by
        rw [← h]
        simp [record, herror, found]
      rw [ih hfound, record_explored]
      simp [firstFailing, herror]
    | some e =>
      have hsome : (c.record r).first.isSome := by simp [record, herror, hfirst]
      rw [recordAll_found_again hsome]
      simp [record, herror, hfirst, found, firstFailing]

end Campaign

/-! ### The loop -/

namespace DecisionTree

/-- A leaf's draws lead to it. -/
theorem forced_of_path {ω : Type} {tree : DecisionTree ω} {ds : List Draw} {o : ω} (h : tree.Path ds o) :
    tree.forced ds = (ds, o) := by
  induction h with
  | leaf o => rfl
  | node v _ ih => rw [forced_node_cons, ih]

/-- What a run to a leaf returns. -/
def resultAt (tree : DecisionTree Report) (s : Strategy) (ds : List Draw) : RunResult :=
  (tree.forced ds).2.result none ds s

/-- The loop along a walk of the in-scope leaves. -/
theorem exploreLoop_walk (R : RandomSource) (s : Strategy) (tree : DecisionTree Report)
    (o : SystematicOptions) (n : Nat) {a : List Draw} {l : List (List Draw)} {c : Campaign}
    (hwalk : Walks (tree.succ o.maxBound o.maxDelays) (a :: l)) (hplan : (tree.forced c.plan).1 = a)
    (hc : tree.Follows c.plan) (hx : c.exhaustive = false) :
    let results := (a :: l).map (tree.resultAt s)
    ∃ c' plan, exploreLoop (tree.replayPlan R s) o n c = .ok c' ∧
      c' = {c.recordAll (o.ran n results) with plan := plan, exhaustive := o.exhausts n results} := by
  induction n generalizing a l c with
  | zero =>
    have hran : o.ran 0 ((a :: l).map (tree.resultAt s)) = [] := by
      unfold SystematicOptions.ran
      split <;> rfl
    have hexhausts : o.exhausts 0 ((a :: l).map (tree.resultAt s)) = false := rfl
    refine ⟨c, c.plan, rfl, ?_⟩
    rw [hran, hexhausts, ← hx]
    rfl
  | succ n ih =>
    have hresult : tree.replayPlan R s c.plan = .ok (tree.resultAt s a) := by
      rw [tree.replayPlan_forced R s c.plan hc, resultAt, ← hplan, forced_of_path (tree.forced_path c.plan)]
    have htape : (tree.resultAt s a).tape = a := rfl
    intro results
    rw [exploreLoop, hresult]
    dsimp only
    rw [htape, odometer_eq]
    by_cases hstops : (tree.resultAt s a).outcome = .error ∧ o.stopOnFailure = true
    · -- a failure ends the search
      have hfails : (tree.resultAt s a).error.isSome := (tree.resultAt s a).consistent.mp hstops.1
      have hran : o.ran (n + 1) results = [tree.resultAt s a] := by
        simp [SystematicOptions.ran, results, hstops.2, upToFailure, hfails]
      have hexhausts : o.exhausts (n + 1) results = false := by
        simp [SystematicOptions.exhausts, hran, hstops.2, hfails]
      refine ⟨c.record (tree.resultAt s a), c.plan, if_pos hstops, ?_⟩
      rw [hran, hexhausts, ← hx]
      exact c.recordAll_with [tree.resultAt s a] c.plan c.exhaustive
    · have hgoes : ¬((tree.resultAt s a).error.isSome ∧ o.stopOnFailure = true) := fun h =>
        hstops ⟨(tree.resultAt s a).consistent.mpr h.1, h.2⟩
      obtain ⟨hran, hexhausts⟩ := o.ran_cons hgoes n (l.map (tree.resultAt s))
      rw [if_neg hstops, show results = tree.resultAt s a :: l.map (tree.resultAt s) from rfl, hran,
        hexhausts]
      have hsucc : tree.succ o.maxBound o.maxDelays a =
          (bumpRight o.maxBound o.maxDelays a).map fun plan => (tree.forced plan).1 := rfl
      cases hbump : bumpRight o.maxBound o.maxDelays a with
      | none =>
        rw [hbump] at hsucc
        cases hwalk with
        | last _ =>
          refine ⟨_, c.plan, rfl, ?_⟩
          rw [List.map_nil, o.ran_nil, o.exhausts_nil]
          exact congrArg (fun c : Campaign => {c with exhaustive := true})
            (c.recordAll_with [tree.resultAt s a] c.plan c.exhaustive)
        | step hnext _ => cases hsucc.symm.trans hnext
      | some plan =>
        rw [hbump] at hsucc
        cases hwalk with
        | last hnone => cases hsucc.symm.trans hnone
        | step hnext hrest =>
          obtain rfl := Option.some.inj (hsucc.symm.trans hnext)
          have hfollows : tree.Follows plan := by
            have hpath := tree.forced_path c.plan
            rw [hplan] at hpath
            exact bumpRight_follows o.maxBound hpath hbump
          obtain ⟨c', plan', hloop, hsame⟩ := ih (c := {c.record (tree.resultAt s a) with plan := plan})
            hrest rfl hfollows ((c.record_exhaustive _).trans hx)
          refine ⟨c', plan', hloop, hsame.trans ?_⟩
          have hwith : ∀ rest, ({c.record (tree.resultAt s a) with plan := plan} : Campaign).recordAll rest =
              {(c.record (tree.resultAt s a)).recordAll rest with
                plan := plan, exhaustive := (c.record (tree.resultAt s a)).exhaustive} :=
            fun rest => (c.record (tree.resultAt s a)).recordAll_with rest plan _
          dsimp only
          rw [hwith]
          rfl

/-! ### What is reported -/

theorem firstFailing_some {k i : Nat} {results : List RunResult} {r : RunResult}
    (h : firstFailing k results = some (i, r)) : r.error.isSome ∧
      ∃ before after, results = before ++ r :: after ∧ ∀ b ∈ before, b.error = none := by
  induction results generalizing k with
  | nil => cases h
  | cons x rest ih =>
    unfold firstFailing at h
    split at h
    · next hfails =>
      obtain ⟨-, rfl⟩ := Prod.mk.inj (Option.some.inj h)
      exact ⟨hfails, [], rest, rfl, fun b hb => absurd hb List.not_mem_nil⟩
    · next hok =>
      obtain ⟨hfails, before, after, rfl, hbefore⟩ := ih h
      refine ⟨hfails, x :: before, after, rfl, List.forall_mem_cons.mpr ⟨?_, hbefore⟩⟩
      simpa using hok

theorem numberedFailures_nil {k : Nat} {results : List RunResult} :
    numberedFailures k results = [] ↔ ∀ r ∈ results, r.error = none := by
  induction results generalizing k with
  | nil => simp [numberedFailures]
  | cons r rest ih => simp [numberedFailures, ih]

theorem upToFailure_clean {results : List RunResult} :
    (∀ r ∈ upToFailure results, r.error = none) ↔ ∀ r ∈ results, r.error = none := by
  induction results with
  | nil => exact Iff.rfl
  | cons r rest ih =>
    unfold upToFailure
    cases herror : r.error with
    | none => simp [herror, ih]
    | some e => simp [herror]

theorem upToFailure_starts (results : List RunResult) : upToFailure results <+: results := by
  induction results with
  | nil => exact List.prefix_rfl
  | cons r rest ih =>
    unfold upToFailure
    split
    · exact ⟨rest, rfl⟩
    · exact List.cons_prefix_cons.mpr ⟨rfl, ih⟩

theorem ran_starts (o : SystematicOptions) (budget : Nat) (results : List RunResult) :
    o.ran budget results <+: results := by
  unfold SystematicOptions.ran
  split
  · exact (upToFailure_starts _).trans (List.take_prefix _ _)
  · exact List.take_prefix _ _

theorem recordAll_outcome (o : SystematicOptions) (results : List RunResult) (plan : List Draw) :
    ({Campaign.start.recordAll (o.ran o.maxSchedules results) with
      plan := plan, exhaustive := o.exhausts o.maxSchedules results} : Campaign).result o =
      o.outcome results := by
  have hexplored := Campaign.start.recordAll_explored (o.ran o.maxSchedules results)
  have hfailures := Campaign.start.recordAll_failures (o.ran o.maxSchedules results)
  have hfound := Campaign.recordAll_found (c := .start) rfl (o.ran o.maxSchedules results)
  rw [show Campaign.start.explored = 0 from rfl, Nat.zero_add] at hexplored hfailures hfound
  obtain ⟨hfirst, hrest⟩ := Prod.mk.inj hfound
  obtain ⟨hat, hdelays⟩ := Prod.mk.inj hrest
  unfold Campaign.result SystematicOptions.outcome
  dsimp only
  rw [hexplored, hfailures, hfirst, hat, hdelays]
  rfl

/-- Within the budget nothing failed exactly where nothing that is seen did. -/
theorem ran_clean {o : SystematicOptions} {results : List RunResult} {budget : Nat}
    (h : results.length ≤ budget) :
    (∀ r ∈ o.ran budget results, r.error = none) ↔ ∀ r ∈ results, r.error = none := by
  unfold SystematicOptions.ran
  rw [List.take_of_length_le h]
  split
  · exact upToFailure_clean
  · exact Iff.rfl

/-- **What a systematic search returns.** On a program that is a decision tree it returns just what
`outcome` says of the in-scope leaves in order. A failure that it reports first is that of an
in-scope leaf, and no failing one comes before it; and if the budget suffices for the scope, it reports one whenever there
is one, whether or not failures end the search. -/
theorem exploreSystematic_eq (R : RandomSource) (s : Strategy) (tree : DecisionTree Report)
    (o : SystematicOptions) (hs : 1 ≤ o.maxSchedules) (hm : 2 ≤ o.maxBound) :
    let scope := tree.leaves.filter fun l => InScope o.maxDelays o.maxBound l.1
    let result := o.outcome (scope.map fun l => l.2.result none l.1 s)
    exploreSystematic (tree.replayPlan R s) o = .ok result ∧
    (∀ r, result.first = some r → ∃ l ∈ scope, r = l.2.result none l.1 s ∧ l.2.error.isSome ∧
      ∀ l' ∈ scope, l'.2.error.isSome → ¬l'.1.map Draw.value < l.1.map Draw.value) ∧
    (scope.length ≤ o.maxSchedules → (result.failed = true ↔ ∃ l ∈ scope, l.2.error.isSome)) := by
  intro scope result
  have hresults : (tree.inScopeLeaves o.maxBound o.maxDelays).map (tree.resultAt s) =
      scope.map fun l => l.2.result none l.1 s := by
    rw [inScopeLeaves_eq_filter, List.map_map]
    refine List.map_congr_left fun l hl => ?_
    have hpath := mem_leaves.mp (List.mem_filter.mp hl).1
    simp only [Function.comp_apply, resultAt, forced_of_path hpath]
  refine ⟨?_, ?_, ?_⟩
  · obtain ⟨hwalk, rest, hstart⟩ := inScopeLeaves_walks o.maxBound tree o.maxDelays
    rw [hstart] at hwalk
    obtain ⟨c, plan, hloop, hc⟩ := tree.exploreLoop_walk R s o o.maxSchedules (c := .start) hwalk rfl
      tree.follows_nil rfl
    rw [← hstart, hresults] at hc
    have hcampaign : exploreCampaign (tree.replayPlan R s) o = .ok c := by
      rw [exploreCampaign, if_neg (Nat.not_lt.mpr hs), if_neg (Nat.not_lt.mpr hm)]
      exact hloop
    rw [exploreSystematic, hcampaign, show result = _ from (recordAll_outcome o _ plan).symm, ← hc]
    rfl
  · intro r hfirst
    obtain ⟨⟨i, r'⟩, hfound, rfl⟩ := Option.map_eq_some_iff.mp hfirst
    obtain ⟨hfails, before, after, hran, hclean⟩ := firstFailing_some hfound
    obtain ⟨rest, hrest⟩ := ran_starts o o.maxSchedules (scope.map fun l => l.2.result none l.1 s)
    rw [hran, List.append_assoc, List.cons_append] at hrest
    obtain ⟨early, late, hscope, hearly, hlate⟩ := List.map_eq_append_iff.mp hrest.symm
    obtain ⟨l, later, hsplit, hl, hlater⟩ := List.map_eq_cons_iff.mp hlate
    rw [hsplit] at hscope
    have hincreasing : scope.Pairwise fun a b => a.1.map Draw.value < b.1.map Draw.value :=
      tree.leaves_increasing.sublist List.filter_sublist
    have herror : r'.error = l.2.error := by rw [← hl]; rfl
    refine ⟨l, by simp [hscope], hl.symm, herror ▸ hfails, fun l' hin hfails' => ?_⟩
    rw [hscope] at hincreasing hin
    rcases List.mem_append.mp hin with hin | hin
    · -- what was run before did not fail
      have hnone : l'.2.error = none :=
        hclean (l'.2.result none l'.1 s) (hearly ▸ List.mem_map_of_mem hin)
      rw [hnone] at hfails'
      cases hfails'
    · rcases List.mem_cons.mp hin with rfl | hin
      · exact List.lt_irrefl _
      · have hlt := (List.pairwise_cons.mp (List.pairwise_append.mp hincreasing).2.1).1 l' hin
        exact List.lt_asymm hlt
  · intro hbudget
    have hlength : (scope.map fun l => l.2.result none l.1 s).length ≤ o.maxSchedules := by
      rwa [List.length_map]
    have hfailures : result.failures = [] ↔ ∀ l ∈ scope, l.2.error = none := by
      rw [show result.failures = numberedFailures 1 _ from rfl, numberedFailures_nil, ran_clean hlength,
        List.forall_mem_map]
      rfl
    unfold SystematicResult.failed
    rw [Bool.not_eq_true', ← Bool.not_eq_true, List.isEmpty_iff, hfailures]
    simp [Option.isSome_iff_ne_none]

/-- The die shows its last side in the fourth schedule. -/
theorem exploreSystematic_eq_coin :
    let scope := coinThenDie.leaves.filter fun l => InScope 2 4 l.1
    let result := SystematicOptions.outcome ⟨2, 8, 4, true⟩ (scope.map fun l => l.2.result none l.1 .random)
    exploreSystematic (coinThenDie.replayPlan zeroSource .random) ⟨2, 8, 4, true⟩ = .ok result ∧
    (∀ r, result.first = some r → ∃ l ∈ scope, r = l.2.result none l.1 .random ∧ l.2.error.isSome ∧
      ∀ l' ∈ scope, l'.2.error.isSome → ¬l'.1.map Draw.value < l.1.map Draw.value) ∧
    (scope.length ≤ 8 → (result.failed = true ↔ ∃ l ∈ scope, l.2.error.isSome)) :=
  exploreSystematic_eq zeroSource .random coinThenDie ⟨2, 8, 4, true⟩ (by decide) (by decide)

end DecisionTree

end Simloom
