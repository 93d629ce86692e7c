import Simloom.Search.DecisionTree
import Simloom.Search.Systematic
import Simloom.Theory.Enumeration

/-! Systematic search is an exact enumeration.

`inScopeLeaves` lists the in-scope leaves of a tree in lexicographic order, by recursion
on the tree. The successor of a leaf is where its bumped plan leads, and on
`inScopeLeaves` the successors walk exactly the list (`inScopeLeaves_walks`): inside the subtree
of a value the walk is the subtree's, and where that one stops the bump moves to
the next value, if the bound and the budget allow one. The search loop is a
bounded visit of that walk (`exploreLoop_visit`). -/
namespace Simloom
open Theory (Walks visit)

/-! ### Scope -/

/-- At most `maxDelays` nonzero values, each at a draw whose bound is in reach. -/
def InScope (maxDelays maxBound : Nat) (ds : List Draw) : Prop :=
  delays ds ≤ maxDelays ∧ ∀ d ∈ ds, d.value ≠ 0 → d.bound ≤ maxBound

instance (maxDelays maxBound : Nat) (ds : List Draw) : Decidable (InScope maxDelays maxBound ds) :=
  inferInstanceAs (Decidable (_ ∧ _))

theorem inScope_nil (budget maxBound : Nat) : InScope budget maxBound [] :=
  ⟨Nat.zero_le _, fun _ h => absurd h List.not_mem_nil⟩

theorem inScope_cons_zero (budget maxBound : Nat) {d : Draw} (ds : List Draw) (h : d.value = 0) :
    InScope budget maxBound (d :: ds) ↔ InScope budget maxBound ds := by
  unfold InScope
  rw [delays_cons, if_pos h, Nat.zero_add, List.forall_mem_cons]
  exact and_congr_right fun _ => and_iff_right fun hd => absurd h hd

theorem inScope_cons_pos (budget maxBound : Nat) {d : Draw} (ds : List Draw) (h : d.value ≠ 0) :
    InScope budget maxBound (d :: ds) ↔
      (d.bound ≤ maxBound ∧ 0 < budget) ∧ InScope (budget - 1) maxBound ds := by
  unfold InScope
  rw [delays_cons, if_neg h, List.forall_mem_cons]
  constructor
  · rintro ⟨hd, hb, hr⟩
    exact ⟨⟨hb h, by omega⟩, by omega, hr⟩
  · rintro ⟨⟨hb, hp⟩, hd, hr⟩
    exact ⟨by omega, fun _ => hb, hr⟩

namespace DecisionTree
variable {ω : Type}

/-- The budget left after drawing `v`. -/
def budgetAfter (budget v : Nat) : Nat := budget - if v = 0 then 0 else 1

/-- The in-scope leaves in lexicographic order. -/
def inScopeLeaves (maxBound : Nat) : DecisionTree ω → Nat → List (List Draw)
  | .leaf _, _ => [[]]
  | .node label bound _ next, budget =>
    (List.finRange bound).flatMap fun v =>
      if v.val = 0 ∨ (bound ≤ maxBound ∧ 0 < budget) then
        ((next v).inScopeLeaves maxBound (budgetAfter budget v)).map (Draw.answer label v :: ·)
      else []

/-- `inScopeLeaves` is the in-scope part of `leaves`. -/
theorem inScopeLeaves_eq_filter (maxBound : Nat) (tree : DecisionTree ω) (budget : Nat) :
    tree.inScopeLeaves maxBound budget =
      (tree.leaves.filter fun l => InScope budget maxBound l.1).map Prod.fst := by
  induction tree generalizing budget with
  | leaf o => simp [inScopeLeaves, leaves, inScope_nil]
  | node label bound hb next ih =>
    simp only [inScopeLeaves, leaves, List.filter_flatMap, List.map_flatMap]
    congr 1
    funext v
    by_cases hv : v.val = 0
    · have hz : (Draw.answer label v).value = 0 := hv
      simp only [hv, true_or, if_true, budgetAfter, Nat.sub_zero, ih, List.filter_map,
        List.map_map, Function.comp_def, inScope_cons_zero budget maxBound _ hz]
    · have hz : (Draw.answer label v).value ≠ 0 := hv
      have hbound : (Draw.answer label v).bound = bound := rfl
      by_cases ha : bound ≤ maxBound ∧ 0 < budget
      · simp only [ha, or_true, if_true, budgetAfter, hv, if_false, ih, List.filter_map,
          List.map_map, Function.comp_def, inScope_cons_pos budget maxBound _ hz, hbound, and_self,
          true_and]
      · simp only [ha, hv, or_self, if_false, List.filter_map, Function.comp_def,
          inScope_cons_pos budget maxBound _ hz, hbound, false_and, decide_false]
        simp

theorem mem_inScopeLeaves (maxBound : Nat) (tree : DecisionTree ω) (budget : Nat) (ds : List Draw) :
    ds ∈ tree.inScopeLeaves maxBound budget ↔ InScope budget maxBound ds ∧ ∃ o, tree.Path ds o := by
  rw [inScopeLeaves_eq_filter]
  simp only [List.mem_map, List.mem_filter, Prod.exists, decide_eq_true_eq, exists_and_right,
    exists_eq_right, mem_leaves]
  exact and_comm.trans (by simp)

/-! ### Lexicographic order -/

/-- Leaves are listed with their values strictly increasing. -/
theorem leaves_increasing (tree : DecisionTree ω) :
    tree.leaves.Pairwise fun a b => a.1.map Draw.value < b.1.map Draw.value := by
  induction tree with
  | leaf o => exact List.pairwise_singleton _ _
  | node label bound hb next ih =>
    rw [leaves, List.pairwise_flatMap]
    constructor
    · intro v _
      rw [List.pairwise_map]
      exact (ih v).imp fun h => List.cons_lt_cons_iff.mpr (.inr ⟨rfl, h⟩)
    · refine (List.pairwise_lt_finRange bound).imp fun {v w} hvw a ha b hb => ?_
      obtain ⟨a', _, rfl⟩ := List.mem_map.mp ha
      obtain ⟨b', _, rfl⟩ := List.mem_map.mp hb
      exact List.cons_lt_cons_iff.mpr (.inl hvw)

theorem inScopeLeaves_increasing (maxBound : Nat) (tree : DecisionTree ω) (budget : Nat) :
    (tree.inScopeLeaves maxBound budget).Pairwise fun a b => a.map Draw.value < b.map Draw.value := by
  rw [inScopeLeaves_eq_filter, List.pairwise_map]
  exact tree.leaves_increasing.sublist List.filter_sublist

/-! ### The walk -/

/-- The leaf after `ds`: where the bumped plan leads. -/
def succ (maxBound : Nat) (tree : DecisionTree ω) (budget : Nat) (ds : List Draw) :
    Option (List Draw) :=
  (bumpRight maxBound budget ds).map fun plan => (tree.forced plan).1

variable (maxBound : Nat) {label : String} {bound : Nat} {hb : 0 < bound}
  {next : Fin bound → DecisionTree ω} {budget : Nat}

/-- Inside the subtree of `v` the successor is the subtree's. -/
theorem succ_inside {v : Fin bound} {a b : List Draw}
    (h : (next v).succ maxBound (budgetAfter budget v) a = some b) :
    (node label bound hb next).succ maxBound budget (Draw.answer label v :: a) =
      some (Draw.answer label v :: b) := by
  obtain ⟨plan, hp, rfl⟩ := Option.map_eq_some_iff.mp h
  have hp' : bumpRight maxBound (budget - if (Draw.answer label v).value = 0 then 0 else 1) a =
      some plan := hp
  rw [succ, bumpRight, hp']
  exact congrArg (fun l => some l.1) (forced_node_cons label hb next v plan)

/-- At the end of the subtree of `v` the bump moves on to `v + 1`, if it may. -/
theorem succ_outside {v : Fin bound} {a : List Draw}
    (h : (next v).succ maxBound (budgetAfter budget v) a = none) :
    (node label bound hb next).succ maxBound budget (Draw.answer label v :: a) =
      if hv : v.val + 1 < bound ∧ bound ≤ maxBound ∧ 0 < budget then
        some (Draw.answer label ⟨v.val + 1, hv.1⟩ :: ((next ⟨v.val + 1, hv.1⟩).forced []).1)
      else none := by
  have hp : bumpRight maxBound (budget - if (Draw.answer label v).value = 0 then 0 else 1) a =
      none := Option.map_eq_none_iff.mp h
  rw [succ, bumpRight, hp]
  dsimp only
  by_cases hv : v.val + 1 < bound ∧ bound ≤ maxBound ∧ 0 < budget
  · have hd : (Draw.answer label v).value + 1 < (Draw.answer label v).bound ∧
        (Draw.answer label v).bound ≤ maxBound ∧ 0 < budget := hv
    rw [dif_pos hd, dif_pos hv]
    exact congrArg (fun l => some l.1) (forced_node_cons label hb next ⟨v.val + 1, hv.1⟩ [])
  · have hd : ¬ ((Draw.answer label v).value + 1 < (Draw.answer label v).bound ∧
        (Draw.answer label v).bound ≤ maxBound ∧ 0 < budget) := hv
    rw [dif_neg hd, dif_neg hv]
    rfl

/-- The subtree of `v` as a segment of the list. -/
def segment (maxBound : Nat) (label : String) {bound : Nat} (next : Fin bound → DecisionTree ω)
    (budget : Nat) (v : Fin bound) : List (List Draw) :=
  ((next v).inScopeLeaves maxBound (budgetAfter budget v)).map (Draw.answer label v :: ·)

/-- The subtree's own walk, and where it starts. -/
def Walked (maxBound : Nat) (tree : DecisionTree ω) (budget : Nat) : Prop :=
  Walks (tree.succ maxBound budget) (tree.inScopeLeaves maxBound budget) ∧
    ∃ l, tree.inScopeLeaves maxBound budget = (tree.forced []).1 :: l

/-- With bumps allowed, the segments from `v` on are one walk. -/
theorem segments_walk (ha : bound ≤ maxBound ∧ 0 < budget)
    (ih : ∀ v budget, (next v).Walked maxBound budget) (n : Nat) (v : Fin bound)
    (hn : v.val + n + 1 = bound) :
    Walks ((node label bound hb next).succ maxBound budget)
        (((List.finRange bound).drop v).flatMap (segment maxBound label next budget)) ∧
      ∃ l, ((List.finRange bound).drop v).flatMap (segment maxBound label next budget) =
        (Draw.answer label v :: ((next v).forced []).1) :: l := by
  obtain ⟨hw, l, hl⟩ := ih v (budgetAfter budget v)
  have hdrop : (List.finRange bound).drop v = v :: (List.finRange bound).drop (v + 1) := by
    rw [List.drop_eq_getElem_cons (by rw [List.length_finRange]; exact v.isLt)]
    simp
  have hhead : segment maxBound label next budget v =
      (Draw.answer label v :: ((next v).forced []).1) :: l.map (Draw.answer label v :: ·) := by
    rw [segment, hl, List.map_cons]
  rw [hdrop, List.flatMap_cons]
  refine ⟨?_, _, by rw [hhead, List.cons_append]⟩
  induction n generalizing v l with
  | zero =>
    -- the last value: its segment ends the list
    have hlast : ¬ (v.val + 1 < bound ∧ bound ≤ maxBound ∧ 0 < budget) := fun h => by omega
    have hempty : (List.finRange bound).drop (v + 1) = [] :=
      List.drop_eq_nil_of_le (by rw [List.length_finRange]; omega)
    rw [hempty, List.flatMap_nil, List.append_nil]
    exact hw.map (fun a _ b => succ_inside maxBound)
      (fun a _ h => (succ_outside maxBound h).trans (dif_neg hlast))
  | succ n ihn =>
    have hv : v.val + 1 < bound := by omega
    have hnext : v.val + 1 < bound ∧ bound ≤ maxBound ∧ 0 < budget := ⟨hv, ha⟩
    obtain ⟨hw', l', hl'⟩ := ih ⟨v.val + 1, hv⟩ (budgetAfter budget (v.val + 1))
    have hdrop' : (List.finRange bound).drop (v + 1) =
        ⟨v.val + 1, hv⟩ :: (List.finRange bound).drop (v.val + 1 + 1) := by
      rw [List.drop_eq_getElem_cons (by rw [List.length_finRange]; exact hv)]
      simp
    have hhead' : segment maxBound label next budget ⟨v.val + 1, hv⟩ =
        (Draw.answer label ⟨v.val + 1, hv⟩ :: ((next ⟨v.val + 1, hv⟩).forced []).1) ::
          l'.map (Draw.answer label ⟨v.val + 1, hv⟩ :: ·) := by
      rw [segment, hl', List.map_cons]
    have hrest := ihn ⟨v.val + 1, hv⟩ (by simp only; omega) hw' l' hl' hdrop' hhead'
    rw [hdrop', List.flatMap_cons]
    rw [hhead', List.cons_append] at hrest ⊢
    exact hw.map_append (fun a _ b => succ_inside maxBound)
      (fun a _ h => (succ_outside maxBound h).trans (dif_pos hnext)) hrest

/-- **The successors walk the in-scope leaves**, from the all-default one. -/
theorem inScopeLeaves_walks (tree : DecisionTree ω) (budget : Nat) : tree.Walked maxBound budget := by
  induction tree generalizing budget with
  | leaf o => exact ⟨.last rfl, [], rfl⟩
  | node label bound hb next ih =>
    by_cases ha : bound ≤ maxBound ∧ 0 < budget
    · have hs : (node label bound hb next).inScopeLeaves maxBound budget =
          ((List.finRange bound).drop 0).flatMap (segment maxBound label next budget) := by
        simp only [inScopeLeaves, ha, and_self, or_true, if_true, List.drop_zero]
        rfl
      unfold Walked
      rw [hs, forced_node_nil]
      exact segments_walk maxBound ha ih (bound - 1) ⟨0, hb⟩ (by simp only; omega)
    · -- no bump is allowed: only the subtree of 0 is in scope
      have hs : (node label bound hb next).inScopeLeaves maxBound budget =
          segment maxBound label next budget ⟨0, hb⟩ := by
        simp only [inScopeLeaves, ha, or_false]
        cases bound with
        | zero => exact absurd hb (Nat.lt_irrefl 0)
        | succ n =>
          rw [List.finRange_succ, List.flatMap_cons, List.flatMap_map]
          simp [segment]
      obtain ⟨hw, l, hl⟩ := ih ⟨0, hb⟩ (budgetAfter budget 0)
      have hstop : ∀ h : (⟨0, hb⟩ : Fin bound).val + 1 < bound ∧ bound ≤ maxBound ∧ 0 < budget,
          False := fun h => ha h.2
      unfold Walked
      rw [hs, forced_node_nil]
      refine ⟨hw.map (fun a _ b => succ_inside maxBound) fun a _ h =>
        (succ_outside maxBound h).trans (dif_neg hstop), l.map (Draw.answer label ⟨0, hb⟩ :: ·), ?_⟩
      rw [segment, hl, List.map_cons]

/-! ### The loop -/

/-- A bumped leaf is a plan that the tree follows. -/
theorem bumpRight_follows {tree : DecisionTree ω} {ds plan : List Draw} {o : ω}
    (hp : tree.Path ds o) {budget : Nat} (h : bumpRight maxBound budget ds = some plan) :
    tree.Follows plan := by
  induction hp generalizing budget plan with
  | leaf o => cases h
  | @node label bound hb next v ds o hp ih =>
    rw [bumpRight] at h
    split at h
    next plan' hr =>
      obtain rfl := Option.some.inj h
      exact ⟨v, rfl, ih hr⟩
    next =>
      split at h
      next hd =>
        obtain rfl := Option.some.inj h
        exact ⟨⟨v.val + 1, hd.1⟩, rfl, follows_nil _⟩
      next => cases h

/-- Every leaf that was run to is free of error. -/
def Clean (tree : DecisionTree Report) (tapes : List (List Draw)) : Prop :=
  ∀ ds ∈ tapes, ∀ report, tree.Path ds report → report.error = none

theorem clean_cons {tree : DecisionTree Report} {plan : List Draw} {tapes : List (List Draw)} :
    tree.Clean ((tree.forced plan).1 :: tapes) ↔
      (tree.forced plan).2.error = none ∧ tree.Clean tapes := by
  unfold Clean
  rw [List.forall_mem_cons]
  refine and_congr_left fun _ => ⟨fun h => h _ (tree.forced_path plan), fun h report hp => ?_⟩
  rw [path_unique hp (tree.forced_path plan)]
  exact h

/-- From a plan the tree follows, the loop visits the walk from where it leads. -/
theorem exploreLoop_visit (R : RandomSource) (s : Strategy) (tree : DecisionTree Report)
    (o : SystematicOptions) (ho : o.stopOnFailure = false) (n : Nat) (c : Campaign)
    (hc : tree.Follows c.plan) (hx : c.exhaustive = false) :
    ∃ c', exploreLoop (tree.replayPlan R s) o n c = .ok c' ∧
      c'.realised = c.realised ++
        (visit (tree.succ o.maxBound o.maxDelays) n (tree.forced c.plan).1).1 ∧
      c'.exhaustive = (visit (tree.succ o.maxBound o.maxDelays) n (tree.forced c.plan).1).2 ∧
      (c'.failures = [] ↔ c.failures = [] ∧
        tree.Clean (visit (tree.succ o.maxBound o.maxDelays) n (tree.forced c.plan).1).1) := by
  induction n generalizing c with
  | zero =>
    exact ⟨c, rfl, (List.append_nil _).symm, hx,
      (and_iff_left fun _ h => absurd h List.not_mem_nil).symm⟩
  | succ n ih =>
    obtain ⟨r, hr⟩ : ∃ r, r = (tree.forced c.plan).2.result none (tree.forced c.plan).1 s :=
      ⟨_, rfl⟩
    have hex : tree.replayPlan R s c.plan = .ok r := hr ▸ tree.replayPlan_forced R s c.plan hc
    have htape : r.tape = (tree.forced c.plan).1 := by rw [hr]; rfl
    have herr : r.error = (tree.forced c.plan).2.error := by rw [hr]; rfl
    have hgo : ¬ (r.outcome = .error ∧ o.stopOnFailure = true) := fun h => by
      rw [ho] at h
      exact Bool.false_ne_true h.2
    rw [exploreLoop, hex]
    simp only [if_neg hgo, odometer_eq, htape, visit, succ]
    cases hb : bumpRight o.maxBound o.maxDelays (tree.forced c.plan).1 with
    | none =>
      refine ⟨_, rfl, ?_, rfl, ?_⟩
      · rw [← htape]
        exact c.record_realised r
      · have hfail := c.record_failures r
        rw [herr] at hfail
        refine hfail.trans (and_congr_right fun _ => ?_)
        exact (clean_cons.trans (and_iff_left fun _ h => absurd h List.not_mem_nil)).symm
    | some plan =>
      have hfol : tree.Follows plan := bumpRight_follows o.maxBound (tree.forced_path c.plan) hb
      obtain ⟨c', hrun, hreal, hexh, hfail⟩ :=
        ih {c.record r with plan := plan} hfol ((c.record_exhaustive r).trans hx)
      refine ⟨c', hrun, ?_, hexh, ?_⟩
      · have hrec : ({c.record r with plan := plan} : Campaign).realised = c.realised ++ [r.tape] :=
          c.record_realised r
        rw [hreal, hrec, htape, List.append_assoc]
        rfl
      · have hrec : ({c.record r with plan := plan} : Campaign).failures = [] ↔
            c.failures = [] ∧ r.error = none := c.record_failures r
        rw [hfail, hrec, herr, and_assoc]
        exact and_congr_right fun _ => clean_cons.symm

/-! ### What a campaign amounts to -/

/-- The in-scope leaves of a tree are enumerated: in order, none twice, and all of
them exactly when the campaign says so. -/
structure Exact (tree : DecisionTree Report) (o : SystematicOptions) (c : Campaign) : Prop where
  increasing : c.realised.Pairwise fun a b => a.map Draw.value < b.map Draw.value
  in_scope : ∀ ds ∈ c.realised, InScope o.maxDelays o.maxBound ds ∧ ∃ report, tree.Path ds report
  exhaustive_iff : (c.result o).exhaustive = true ↔
    (tree.leaves.filter fun l => InScope o.maxDelays o.maxBound l.1).length ≤ o.maxSchedules
  complete : (c.result o).exhaustive = true →
    ∀ l ∈ tree.leaves, InScope o.maxDelays o.maxBound l.1 → l.1 ∈ c.realised
  proven : (c.result o).provenCorrect = true →
    ∀ l ∈ tree.leaves, InScope o.maxDelays o.maxBound l.1 → l.2.error = none

/-- **Systematic search is an exact enumeration.** On a program that is a decision
tree, with `stop_on_failure` off and the options in range, the search returns and
has run the in-scope leaves in lexicographic order, as many as its budget allows. -/
theorem exploreSystematic_exact (R : RandomSource) (s : Strategy) (tree : DecisionTree Report)
    (o : SystematicOptions) (hs : 1 ≤ o.maxSchedules) (hm : 2 ≤ o.maxBound)
    (ho : o.stopOnFailure = false) :
    ∃ c, exploreCampaign (tree.replayPlan R s) o = .ok c ∧
      exploreSystematic (tree.replayPlan R s) o = .ok (c.result o) ∧ tree.Exact o c := by
  obtain ⟨hwalk, rest, hstart⟩ := inScopeLeaves_walks o.maxBound tree o.maxDelays
  rw [hstart] at hwalk
  obtain ⟨htaken, hend⟩ := hwalk.visit o.maxSchedules
  rw [← hstart] at htaken hend
  obtain ⟨c, hrun, hreal, hexh, hfail⟩ :=
    tree.exploreLoop_visit R s o ho o.maxSchedules .start tree.follows_nil rfl
  have hplan : Campaign.start.plan = [] := rfl
  have hempty : Campaign.start.realised = [] := rfl
  rw [hplan] at hreal hexh hfail
  rw [hempty, List.nil_append, htaken] at hreal
  have hcampaign : exploreCampaign (tree.replayPlan R s) o = .ok c := by
    rw [exploreCampaign, if_neg (Nat.not_lt.mpr hs), if_neg (Nat.not_lt.mpr hm)]
    exact hrun
  have hall : c.exhaustive = true →
      c.realised = tree.inScopeLeaves o.maxBound o.maxDelays := fun h => by
    rw [hreal, List.take_of_length_le (hend.mp (hexh ▸ h))]
  have hcomplete : c.exhaustive = true →
      ∀ l ∈ tree.leaves, InScope o.maxDelays o.maxBound l.1 → l.1 ∈ c.realised := by
    intro h l hl hin
    rw [hall h, mem_inScopeLeaves]
    exact ⟨hin, l.2, mem_leaves.mp hl⟩
  refine ⟨c, hcampaign, by rw [exploreSystematic, hcampaign]; rfl, ?_, ?_, ?_, hcomplete, ?_⟩
  · rw [hreal]
    exact (inScopeLeaves_increasing o.maxBound tree o.maxDelays).sublist (List.take_sublist _ _)
  · intro ds hds
    rw [hreal] at hds
    exact (mem_inScopeLeaves o.maxBound tree o.maxDelays ds).mp (List.mem_of_mem_take hds)
  · show c.exhaustive = true ↔ _
    rw [hexh, hend, inScopeLeaves_eq_filter, List.length_map]
  · intro h l hl hin
    obtain ⟨hx, hf⟩ := (Bool.and_eq_true _ _).mp h
    have hclean := (hfail.mp (List.isEmpty_iff.mp hf)).2
    rw [htaken, ← hreal] at hclean
    exact hclean l.1 (hcomplete hx l hl hin) l.2 (mem_leaves.mp hl)

/-- A report with nothing but its error. -/
def bareReport (error : Option PyException) : Report := ⟨error, [], []⟩

/-- A coin, and after heads a die that fails on its last side. -/
def coinThenDie : DecisionTree Report :=
  .node "coin" 2 Nat.two_pos fun heads =>
    if heads.val = 0 then .leaf (bareReport none)
    else .node "die" 3 (by decide) fun side =>
      .leaf (bareReport (if side.val = 2 then some ⟨valueError, "snake eyes"⟩ else none))

theorem exploreSystematic_exact_coin :
    ∃ c, exploreCampaign (coinThenDie.replayPlan zeroSource .random) ⟨2, 4, 8, false⟩ = .ok c ∧
      exploreSystematic (coinThenDie.replayPlan zeroSource .random) ⟨2, 4, 8, false⟩ =
        .ok (c.result ⟨2, 4, 8, false⟩) ∧
      coinThenDie.Exact ⟨2, 4, 8, false⟩ c :=
  exploreSystematic_exact zeroSource .random coinThenDie ⟨2, 4, 8, false⟩ (by decide) (by decide) rfl

end DecisionTree

end Simloom
