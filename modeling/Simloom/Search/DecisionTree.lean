import Simloom.Run.Result
import Simloom.Tape.Replay

/-! A program as a finite decision tree.

The label and the bound of each draw, and what the run reports in the end, are
functions of the values drawn so far. `Path` is the declarative reading: which
draws lead to which leaf. `run` feeds the tree from a tape, and `replay` is how
the search procedures execute a plan: forced as far as it goes, zeros after. -/
namespace Simloom

inductive DecisionTree (ω : Type) where
  | leaf (outcome : ω)
  | node (label : String) (bound : Nat) (bound_pos : 0 < bound) (next : Fin bound → DecisionTree ω)

namespace DecisionTree
variable {ω : Type} {R : RandomSource}

/-- The draws on the way to a leaf. -/
inductive Path : DecisionTree ω → List Draw → ω → Prop where
  | leaf (o : ω) : Path (.leaf o) [] o
  | node {label : String} {bound : Nat} {hb : 0 < bound} {next : Fin bound → DecisionTree ω}
      (v : Fin bound) {ds : List Draw} {o : ω} :
      Path (next v) ds o → Path (.node label bound hb next) (Draw.answer label v :: ds) o

/-- Every leaf with the draws that lead to it, the values counting up. -/
def leaves : DecisionTree ω → List (List Draw × ω)
  | .leaf o => [([], o)]
  | .node label bound _ next =>
    (List.finRange bound).flatMap fun v =>
      (next v).leaves.map fun l => (Draw.answer label v :: l.1, l.2)

theorem mem_leaves {t : DecisionTree ω} {ds : List Draw} {o : ω} :
    (ds, o) ∈ t.leaves ↔ t.Path ds o := by
  induction t generalizing ds with
  | leaf o' =>
    rw [leaves, List.mem_singleton, Prod.mk.injEq]
    exact ⟨fun ⟨hd, ho⟩ => by subst hd ho; exact .leaf o, fun h => by cases h; exact ⟨rfl, rfl⟩⟩
  | node label bound hb next ih =>
    simp only [leaves, List.mem_flatMap, List.mem_map, Prod.mk.injEq]
    constructor
    · rintro ⟨v, _, ⟨ds', o'⟩, hl, rfl, rfl⟩
      exact .node v ((ih v).mp hl)
    · intro h
      cases h with
      | node v hp => exact ⟨v, List.mem_finRange v, (_, o), (ih v).mpr hp, rfl, rfl⟩

theorem path_unique {t : DecisionTree ω} {ds : List Draw} {o o' : ω} (h : t.Path ds o)
    (h' : t.Path ds o') : o = o' := by
  induction t generalizing ds with
  | leaf _ => cases h; cases h'; rfl
  | node label bound hb next ih =>
    cases h with
    | node v hp =>
      generalize hds : Draw.answer label v :: _ = ds' at h'
      cases h' with
      | node w hp' =>
        obtain ⟨hd, rfl⟩ := List.cons.inj hds
        have hv : v = w := Fin.ext (congrArg Draw.value hd)
        subst hv
        exact ih v hp hp'

/-- Feed the tree from a tape. -/
def run : DecisionTree ω → Tape R → Except TapeError (ω × Tape R)
  | .leaf o, t => .ok (o, t)
  | .node label bound _ next, t =>
    match t.draw label bound with
    | .error e => .error e
    | .ok (v, u) => (next v).run u

theorem run_node_ok {label : String} {bound : Nat} {hb : 0 < bound}
    {next : Fin bound → DecisionTree ω} {t u : Tape R} {v : Fin bound}
    (h : t.draw label bound = .ok (v, u)) : (node label bound hb next).run t = (next v).run u := by
  rw [run, h]

/-- A run that ends took a path of the tree and recorded it. -/
theorem run_path (tree : DecisionTree ω) (t t' : Tape R) (o : ω) (h : tree.run t = .ok (o, t')) :
    ∃ ds, tree.Path ds o ∧ t'.draws = t.draws ++ ds := by
  induction tree generalizing t with
  | leaf o' =>
    obtain ⟨rfl, rfl⟩ := Prod.mk.inj (Except.ok.inj h)
    exact ⟨[], .leaf _, (List.append_nil _).symm⟩
  | node label bound hb next ih =>
    cases hd : t.draw label bound with
    | error e => rw [run, hd] at h; cases h
    | ok answer =>
      obtain ⟨v, u⟩ := answer
      rw [run_node_ok hd] at h
      obtain ⟨ds, hp, hds⟩ := ih v u h
      refine ⟨Draw.answer label v :: ds, .node v hp, ?_⟩
      rw [hds, (Tape.draw_ok hd).1, List.append_assoc, List.singleton_append]

/-- Fed a path, the tree follows it to its leaf and consumes it. -/
theorem run_feeding {tree : DecisionTree ω} {ds : List Draw} {o : ω} (hp : tree.Path ds o)
    (u : Tape R) (rest : List Draw) (hf : u.Feeding (ds ++ rest)) :
    ∃ u', tree.run u = .ok (o, u') ∧ u'.Feeding rest ∧ u'.draws = u.draws ++ ds := by
  induction hp generalizing u with
  | leaf o => exact ⟨u, rfl, hf, (List.append_nil _).symm⟩
  | node v hp ih =>
    obtain ⟨u₁, hu₁, hf₁, hd₁, _, _⟩ := Tape.Feeding.draw hf
    obtain ⟨u₂, hr₂, hf₂, hd₂⟩ := ih u₁ hf₁
    exact ⟨u₂, (run_node_ok hu₁).trans hr₂, hf₂, by
      rw [hd₂, hd₁, List.append_assoc, List.singleton_append]⟩

/-- The value a plan asks for at its first draw: 0 once it is used up. -/
def planned {bound : Nat} (hb : 0 < bound) : List Draw → Fin bound
  | [] => ⟨0, hb⟩
  | d :: _ => if h : d.value < bound then ⟨d.value, h⟩ else ⟨0, hb⟩

/-- Where a plan leads: its values as far as they go, zeros after. -/
def forced : DecisionTree ω → List Draw → List Draw × ω
  | .leaf o, _ => ([], o)
  | .node label _ hb next, plan =>
    (Draw.answer label (planned hb plan) :: ((next (planned hb plan)).forced plan.tail).1,
      ((next (planned hb plan)).forced plan.tail).2)

theorem forced_node_nil (label : String) {bound : Nat} (hb : 0 < bound)
    (next : Fin bound → DecisionTree ω) :
    (node label bound hb next).forced [] =
      (Draw.answer label ⟨0, hb⟩ :: ((next ⟨0, hb⟩).forced []).1, ((next ⟨0, hb⟩).forced []).2) :=
  rfl

theorem forced_node_cons (label : String) {bound : Nat} (hb : 0 < bound)
    (next : Fin bound → DecisionTree ω) (v : Fin bound) (plan : List Draw) :
    (node label bound hb next).forced (Draw.answer label v :: plan) =
      (Draw.answer label v :: ((next v).forced plan).1, ((next v).forced plan).2) := by
  have hv : planned hb (Draw.answer label v :: plan) = v := by
    simp [planned, Draw.answer]
  simp only [forced, hv, List.tail_cons]

theorem forced_path (tree : DecisionTree ω) (plan : List Draw) :
    tree.Path (tree.forced plan).1 (tree.forced plan).2 := by
  induction tree generalizing plan with
  | leaf o => exact .leaf o
  | node label bound hb next ih => exact .node _ (ih _ plan.tail)

/-- A plan whose requests are the tree's own. -/
def Follows : DecisionTree ω → List Draw → Prop
  | _, [] => True
  | .leaf _, _ :: _ => False
  | .node label bound _ next, d :: plan =>
    ∃ v : Fin bound, d = Draw.answer label v ∧ (next v).Follows plan

theorem follows_nil (tree : DecisionTree ω) : tree.Follows [] := by
  cases tree <;> trivial

theorem run_zeroing (tree : DecisionTree ω) (t : Tape R) (hz : t.Zeroing) :
    ∃ t', tree.run t = .ok ((tree.forced []).2, t') ∧ t'.draws = t.draws ++ (tree.forced []).1 := by
  induction tree generalizing t with
  | leaf o => exact ⟨t, rfl, (List.append_nil _).symm⟩
  | node label bound hb next ih =>
    obtain ⟨u, hu, hzu⟩ := hz.draw label hb
    obtain ⟨u', hr, hd⟩ := ih ⟨0, hb⟩ u hzu
    exact ⟨u', (run_node_ok hu).trans hr, by
      rw [hd, (Tape.draw_ok hu).1, List.append_assoc, List.singleton_append, forced_node_nil]⟩

/-- A zero-filled fallback tape forces exactly the plan it replays. -/
theorem run_forced (tree : DecisionTree ω) (plan : List Draw) (hp : tree.Follows plan) (t : Tape R)
    (hf : t.Feeding plan) (hpol : t.policy = .fallback) (hrng : t.rng = .zero) :
    ∃ t', tree.run t = .ok ((tree.forced plan).2, t') ∧
      t'.draws = t.draws ++ (tree.forced plan).1 := by
  induction plan generalizing tree t with
  | nil => exact tree.run_zeroing t (hf.zeroing hpol hrng)
  | cons d plan ih =>
    cases tree with
    | leaf o => exact hp.elim
    | node label bound hb next =>
      obtain ⟨v, rfl, hfol⟩ := hp
      obtain ⟨u, hu, hfu, hdu, hsame, hg⟩ := hf.draw
      obtain ⟨t', hr, hd⟩ := ih (next v) hfol u hfu (hsame.2.1.trans hpol) (hg.trans hrng)
      refine ⟨t', ?_, ?_⟩
      · rw [forced_node_cons]
        exact (run_node_ok hu).trans hr
      · rw [hd, hdu, List.append_assoc, List.singleton_append, forced_node_cons]

/-- A tape that cannot refuse takes the tree to some leaf. -/
theorem run_willing (tree : DecisionTree ω) (t : Tape R) (h : t.Willing) :
    ∃ o t', tree.run t = .ok (o, t') := by
  induction tree generalizing t with
  | leaf o => exact ⟨o, t, rfl⟩
  | node label bound hb next ih =>
    obtain ⟨v, u, hd, hw⟩ := h.draw label hb
    obtain ⟨o, t', hr⟩ := ih v u hw
    exact ⟨o, t', (run_node_ok hd).trans hr⟩

/-! ### Executing a plan

A tree is a program under one scheduler: the scheduler's own draws are among the
tree's, and the result names its strategy. -/

/-- What a run of the tree on a tape returns. -/
def result (tree : DecisionTree Report) (s : Strategy) (tape : Tape R) : Except Halt RunResult :=
  match tree.run tape with
  | .ok (report, tape') => .ok (report.result tape.seed tape'.draws s)
  | .error e => .error (.raised e.exception)

/-- `replay(main, tape=plan, policy=FALLBACK, fallback="zero", raise_on_error=False)`. -/
def replayPlan (R : RandomSource) (s : Strategy) (tree : DecisionTree Report) (plan : List Draw) :
    Except Halt RunResult :=
  tree.result s (Tape.replay plan .fallback 0 .zero : Tape R)

/-- A plan is always executed to a leaf, and its result is that leaf's. -/
theorem replayPlan_ok (R : RandomSource) (s : Strategy) (tree : DecisionTree Report)
    (plan : List Draw) : ∃ ds report, tree.Path ds report ∧
      tree.replayPlan R s plan = .ok (report.result none ds s) := by
  obtain ⟨report, t', hr⟩ := tree.run_willing (Tape.replay plan .fallback 0 .zero : Tape R)
    (Tape.fallback_willing plan 0 .zero)
  obtain ⟨ds, hp, hds⟩ := tree.run_path _ t' report hr
  refine ⟨ds, report, hp, ?_⟩
  unfold replayPlan result
  rw [hr]
  simp only [hds]
  rfl

/-- A plan the tree follows is executed to the leaf it forces. -/
theorem replayPlan_forced (R : RandomSource) (s : Strategy) (tree : DecisionTree Report)
    (plan : List Draw) (hp : tree.Follows plan) : tree.replayPlan R s plan =
      .ok ((tree.forced plan).2.result none (tree.forced plan).1 s) := by
  obtain ⟨t', hr, hd⟩ := tree.run_forced plan hp (Tape.replay plan .fallback 0 .zero : Tape R)
    (Tape.replay_feeding plan _ _ _) rfl rfl
  unfold replayPlan result
  rw [hr]
  simp only [hd]
  rfl

/-- A strict replay of a path is that path's result, and consumes it exactly. -/
theorem run_strict (R : RandomSource) {tree : DecisionTree ω} {ds : List Draw} {o : ω}
    (hp : tree.Path ds o) : ∃ u, tree.run (Tape.replayStrict ds : Tape R) = .ok (o, u) ∧
      u.replayExact = true ∧ u.draws = ds := by
  have hf : (Tape.replayStrict ds : Tape R).Feeding (ds ++ []) := by
    rw [List.append_nil]
    exact Tape.replay_feeding _ _ _ _
  obtain ⟨u, hr, hfu, hd⟩ := run_feeding hp _ [] hf
  exact ⟨u, hr, hfu.replayExact.mpr rfl, hd.trans (List.nil_append _)⟩

end DecisionTree

end Simloom
