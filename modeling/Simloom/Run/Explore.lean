import Simloom.Run.Execute
import Simloom.Run.Lone
import Simloom.Theory.Dict

/-! `run` and `explore`: universes from seeds.

`run` executes one seed; `explore` executes a range of them and lists the ones that
failed. Both must turn a `"pct:auto"` request into a horizon first, and each does so
by probing: `run` the seed it was given, `explore` the seed it starts from. A failing
seed therefore reproduces from the seed alone exactly when the two probes agree or no
change point is drawn (`failure_reproduces_iff`). -/
namespace Simloom
open Theory
variable {R : RandomSource}

/-! ### One seed -/

/-- The executions of a program from seeds. -/
def generated (main : Program) (seed : Int) (raiseOnError : Bool) (spec : SchedulerSpec)
    (kw : RunKwargs) (fuel : Nat) (R : RandomSource) : Except Halt RunResult :=
  execute main (Tape.generate seed : Tape R) (some seed) raiseOnError spec kw fuel

/-- A probe runs without the options that only watch. -/
def RunKwargs.probing (kw : RunKwargs) : RunKwargs :=
  {kw with options := {kw.options with causal := false}, onUnhandled := .record, watchdog := none}

/-- The step events of one random walk. -/
def probe (main : Program) (seed : Int) (kw : RunKwargs) (fuel : Nat) (R : RandomSource) :
    Except Halt Nat := do
  let r ← generated main seed false .random kw.probing fuel R
  return r.log.countP fun event => event.kind == "step"

/-- The horizon a probe measures. -/
def horizonOf (steps : Nat) : Int := max 1 steps

/-- `resolve_auto_horizon`: an auto-horizon request gets the measured one. -/
def resolveAutoHorizon (main : Program) (spec : SchedulerSpec) (seed : Int) (kw : RunKwargs)
    (fuel : Nat) (R : RandomSource) : Except Halt SchedulerSpec :=
  match autoPctDepth spec with
  | none => .ok spec
  | some depth => do
    let steps ← probe main seed kw fuel R
    return .pct (some depth) (some (horizonOf steps))

/-- How event logs are digested, and how the error of a determinism check prints the
place where two of them part. -/
structure LogText where
  digest : List Event → String
  divergence : List Event → List Event → String

def nondeterminism (L : LogText) (seed : Int) (first second : RunResult) : PyException :=
  ⟨nondeterminismError, "seed " ++ toString seed ++
    " produced two different universes — the test is nondeterministic " ++
    "in a way the choice tape does not control (iterating a set/dict keyed by " ++
    "object identity, a stray real time.time()/random not routed through simloom, " ++
    "or threads doing real work). First divergence at event #" ++
    L.divergence first.log second.log⟩

/-- `run`: one seed, twice if its determinism is to be checked. -/
def run (L : LogText) (main : Program) (seed : Int) (raiseOnError : Bool) (spec : SchedulerSpec)
    (checkDeterminism : Bool) (kw : RunKwargs) (fuel : Nat) (R : RandomSource) :
    Except Halt RunResult := do
  let resolved ← resolveAutoHorizon main spec seed kw fuel R
  if checkDeterminism then
    let first ← generated main seed false resolved kw fuel R
    let second ← generated main seed false resolved kw fuel R
    if L.digest first.log ≠ L.digest second.log then
      let error := nondeterminism L seed first second
      let report : Report := ⟨some error, first.log, first.coverage⟩
      if raiseOnError then .error (.raised error)
      else return report.result first.seed first.tape first.scheduler
    else
      match raiseOnError, first.error with
      | true, some e => .error (.raised e)
      | _, _ => return first
  else generated main seed raiseOnError resolved kw fuel R

/-! ### A campaign -/

/-- What `explore` found. -/
structure Exploration where
  runs : Nat
  failures : List Failure
  firstFailure : Option RunResult
  coverage : Dict String Nat

/-- The coverage of one more run, added label by label. -/
def addCoverage (total : Dict String Nat) (coverage : List (String × Nat)) : Dict String Nat :=
  coverage.foldl (fun d e => d.set e.1 ((d.get? e.1).getD 0 + e.2)) total

/-- Count one result, and list it if it failed. -/
def Exploration.add (ex : Exploration) (seed : Int) (r : RunResult) : Exploration :=
  {ex with
    runs := ex.runs + 1
    failures := ex.failures ++ (r.error.map fun e => e.failure seed).toList
    coverage := addCoverage ex.coverage r.coverage}

/-- Keep the first failing result as the campaign's artifact. -/
def Exploration.keep (ex : Exploration) (r : RunResult) : Exploration :=
  {ex with firstFailure := ex.firstFailure.or (if r.error.isSome then some r else none)}

def Exploration.start : Exploration := ⟨0, [], none, Dict.empty⟩

/-- The seeds one after the other; a failure may stop the campaign. -/
def exploreSeeds (once : Int → Except Halt RunResult) (stopOnFailure : Bool) :
    List Int → Exploration → Except Halt Exploration
  | [], ex => .ok ex
  | seed :: rest, ex => do
    let r ← once seed
    let ex := (ex.add seed r).keep r
    if r.error.isSome ∧ stopOnFailure then return ex
    else exploreSeeds once stopOnFailure rest ex

/-- Collect the results of a chunk; true once the campaign is to stop. -/
def collect (stopOnFailure : Bool) : List (Int × RunResult) → Exploration → Exploration × Bool
  | [], ex => (ex, false)
  | (seed, r) :: rest, ex =>
    if r.error.isSome ∧ stopOnFailure then (ex.add seed r, true)
    else collect stopOnFailure rest (ex.add seed r)

/-- The pool hands its results over in order, a whole chunk at a time; an exception
in a chunk takes the place of its results. What it runs of later chunks is dropped. -/
def exploreChunks (once : Int → Except Halt RunResult) (stopOnFailure : Bool) :
    List (List Int) → Exploration → Except Halt Exploration
  | [], ex => .ok ex
  | chunk :: rest, ex => do
    let results ← chunk.mapM fun seed => do
      let r ← once seed
      return (seed, r)
    let (ex, stop) := collect stopOnFailure results ex
    if stop then return ex else exploreChunks once stopOnFailure rest ex

/-- `_explore_pool`: the first failing seed is run once more, in this process. -/
def explorePool (once : Int → Except Halt RunResult) (seeds : List Int) (stopOnFailure : Bool) :
    Except Halt Exploration := do
  let ex ← exploreChunks once stopOnFailure (seeds.toChunks 8) .start
  let failures := ex.failures.mergeSort fun a b => a.seed ≤ b.seed
  match failures with
  | [] => return {ex with failures := failures}
  | f :: _ => do
    let first ← once f.seed
    return {ex with failures := failures, firstFailure := some first}

structure ExploreOptions where
  runs : Int
  startSeed : Int
  stopOnFailure : Bool
  processes : Int
  checkDeterminism : Bool

def ExploreOptions.seeds (o : ExploreOptions) : List Int :=
  (List.range o.runs.toNat).map fun i => o.startSeed + i

/-- The run that `explore` makes of a seed: the campaign's scheduler is resolved. -/
def campaignRun (L : LogText) (main : Program) (o : ExploreOptions) (resolved : SchedulerSpec)
    (kw : RunKwargs) (fuel : Nat) (R : RandomSource) (seed : Int) : Except Halt RunResult :=
  run L main seed false resolved o.checkDeterminism kw fuel R

/-- `explore`: the horizon is measured once, at the start seed. -/
def explore (L : LogText) (main : Program) (o : ExploreOptions) (spec : SchedulerSpec)
    (kw : RunKwargs) (fuel : Nat) (R : RandomSource) : Except Halt Exploration := do
  if o.runs < 1 then .error (.raised ⟨valueError, "runs must be >= 1"⟩)
  else
    let resolved ← resolveAutoHorizon main spec o.startSeed kw fuel R
    let once := campaignRun L main o resolved kw fuel R
    if 1 < o.processes then explorePool once o.seeds o.stopOnFailure
    else exploreSeeds once o.stopOnFailure o.seeds .start

/-- A result that is returned is returned with more fuel, too. -/
theorem generated_mono {main : Program} {seed : Int} {spec : SchedulerSpec} {kw : RunKwargs}
    {fuel : Nat} {r : RunResult} (h : generated main seed false spec kw fuel R = .ok r)
    (more : Nat) : generated main seed false spec kw (fuel + more) R = .ok r := by
  obtain ⟨strategy, u, t', hu, rfl⟩ := execute_ok h
  exact execute_quiet (universeOf_extends main spec kw fuel more _ _ hu) (some seed)

/-! ### What a run executes -/

/-- Checking determinism changes nothing for a program that is a function of its tape. -/
theorem run_quiet (L : LogText) (main : Program) (seed : Int) (spec : SchedulerSpec)
    (checkDeterminism : Bool) (kw : RunKwargs) (fuel : Nat) (R : RandomSource) :
    run L main seed false spec checkDeterminism kw fuel R =
      resolveAutoHorizon main spec seed kw fuel R >>= fun resolved =>
        generated main seed false resolved kw fuel R := by
  unfold run
  refine congrArg _ (funext fun resolved => ?_)
  cases checkDeterminism with
  | false => rfl
  | true =>
    cases hg : generated main seed false resolved kw fuel R with
    | error e => rfl
    | ok first => simp [bind, Except.bind, pure, Except.pure]

theorem except_bind_ok {α β : Type} {x : Except Halt α} {f : α → Except Halt β} {b : β}
    (h : x >>= f = .ok b) : ∃ a, x = .ok a ∧ f a = .ok b := by
  cases x with
  | error e => cases h
  | ok a => exact ⟨a, rfl, h⟩

theorem resolveAutoHorizon_none {spec : SchedulerSpec} (h : autoPctDepth spec = none)
    (main : Program) (seed : Int) (kw : RunKwargs) (fuel : Nat) (R : RandomSource) :
    resolveAutoHorizon main spec seed kw fuel R = .ok spec := by
  unfold resolveAutoHorizon
  rw [h]

/-- An auto-horizon request is resolved to what its probe measures. -/
theorem resolveAutoHorizon_some {spec resolved : SchedulerSpec} {depth : Int}
    (h : autoPctDepth spec = some depth) {main : Program} {seed : Int} {kw : RunKwargs} {fuel : Nat} :
    resolveAutoHorizon main spec seed kw fuel R = .ok resolved ↔
      ∃ steps, probe main seed kw fuel R = .ok steps ∧
        resolved = .pct (some depth) (some (horizonOf steps)) := by
  unfold resolveAutoHorizon
  rw [h]
  constructor
  · intro hr
    obtain ⟨steps, hs, hr⟩ := except_bind_ok hr
    exact ⟨steps, hs, (Except.ok.inj hr).symm⟩
  · rintro ⟨steps, hs, rfl⟩
    show (probe main seed kw fuel R >>= fun steps => _) = _
    rw [hs]
    rfl

theorem resolveAutoHorizon_resolved {main : Program} {spec resolved : SchedulerSpec} {seed : Int}
    {kw : RunKwargs} {fuel : Nat} (h : resolveAutoHorizon main spec seed kw fuel R = .ok resolved) :
    autoPctDepth resolved = none := by
  cases hd : autoPctDepth spec with
  | none =>
    rw [resolveAutoHorizon_none hd] at h
    rw [← Except.ok.inj h]
    exact hd
  | some depth =>
    obtain ⟨steps, _, rfl⟩ := (resolveAutoHorizon_some hd).mp h
    rfl

/-- A campaign's run executes its seed under the resolved scheduler. -/
theorem campaignRun_eq {main : Program} {spec resolved : SchedulerSpec} {seed₀ : Int}
    {kw : RunKwargs} {fuel : Nat} (h : resolveAutoHorizon main spec seed₀ kw fuel R = .ok resolved)
    (L : LogText) (o : ExploreOptions) (seed : Int) :
    campaignRun L main o resolved kw fuel R seed = generated main seed false resolved kw fuel R := by
  rw [campaignRun, run_quiet, resolveAutoHorizon_none (resolveAutoHorizon_resolved h)]
  rfl

theorem probe_mono {main : Program} {seed : Int} {kw : RunKwargs} {fuel steps : Nat}
    (h : probe main seed kw fuel R = .ok steps) (more : Nat) :
    probe main seed kw (fuel + more) R = .ok steps := by
  obtain ⟨r, hr, hs⟩ := except_bind_ok h
  rw [probe, generated_mono hr]
  exact hs

/-! ### Reported failures -/

section Reported
variable {once : Int → Except Halt RunResult}

/-- Every failure that is listed is the failure of its seed's run. -/
def Exploration.Reported (ex : Exploration) (once : Int → Except Halt RunResult) : Prop :=
  ∀ f ∈ ex.failures, ∃ r e, once f.seed = .ok r ∧ r.error = some e ∧ f = e.failure f.seed

theorem Exploration.Reported.add {ex : Exploration} (h : ex.Reported once) {seed : Int}
    {r : RunResult} (hr : once seed = .ok r) : (ex.add seed r).Reported once := by
  intro f hf
  rcases List.mem_append.mp hf with hf | hf
  · exact h f hf
  · cases he : r.error with
    | none => rw [he] at hf; cases hf
    | some e =>
      rw [he] at hf
      obtain rfl : f = e.failure seed := List.mem_singleton.mp hf
      exact ⟨r, e, hr, he, rfl⟩

theorem exploreSeeds_reported {stop : Bool} {seeds : List Int} {ex ex' : Exploration}
    (h : exploreSeeds once stop seeds ex = .ok ex') (hex : ex.Reported once) :
    ex'.Reported once := by
  induction seeds generalizing ex with
  | nil => exact Except.ok.inj h ▸ hex
  | cons seed rest ih =>
    obtain ⟨r, hr, h⟩ := except_bind_ok h
    have hadd : ((ex.add seed r).keep r).Reported once := hex.add hr
    by_cases hs : r.error.isSome ∧ stop
    · rw [if_pos hs] at h
      exact Except.ok.inj h ▸ hadd
    · rw [if_neg hs] at h
      exact ih h hadd

/-- The artifact of a sequential campaign is a run of one of its seeds. -/
theorem exploreSeeds_first {stop : Bool} {seeds : List Int} {ex ex' : Exploration}
    (h : exploreSeeds once stop seeds ex = .ok ex')
    (hex : ∀ r, ex.firstFailure = some r → ∃ seed, once seed = .ok r) :
    ∀ r, ex'.firstFailure = some r → ∃ seed, once seed = .ok r := by
  induction seeds generalizing ex with
  | nil => exact Except.ok.inj h ▸ hex
  | cons seed rest ih =>
    obtain ⟨r, hr, h⟩ := except_bind_ok h
    have hkeep : ∀ r', ((ex.add seed r).keep r).firstFailure = some r' →
        ∃ seed, once seed = .ok r' := by
      intro r' hr'
      rcases Option.or_eq_some_iff.mp hr' with hfirst | ⟨_, hfirst⟩
      · exact hex r' hfirst
      · split at hfirst
        · exact ⟨seed, Option.some.inj hfirst ▸ hr⟩
        · cases hfirst
    by_cases hs : r.error.isSome ∧ stop
    · rw [if_pos hs] at h
      exact Except.ok.inj h ▸ hkeep
    · rw [if_neg hs] at h
      exact ih h hkeep

theorem collect_reported (stop : Bool) {results : List (Int × RunResult)} {ex : Exploration}
    (hr : ∀ p ∈ results, once p.1 = .ok p.2) (hex : ex.Reported once) :
    (collect stop results ex).1.Reported once := by
  induction results generalizing ex with
  | nil => exact hex
  | cons p rest ih =>
    obtain ⟨seed, r⟩ := p
    have hadd := hex.add (hr _ List.mem_cons_self)
    unfold collect
    split
    · exact hadd
    · exact ih (fun p hp => hr p (List.mem_cons_of_mem _ hp)) hadd

theorem chunk_results {chunk : List Int} {results : List (Int × RunResult)}
    (h : (chunk.mapM fun seed => do
      let r ← once seed
      return (seed, r)) = .ok results) : ∀ p ∈ results, once p.1 = .ok p.2 := by
  induction chunk generalizing results with
  | nil =>
    obtain rfl : results = [] := (Except.ok.inj h).symm
    exact fun p hp => absurd hp List.not_mem_nil
  | cons seed rest ih =>
    rw [List.mapM_cons] at h
    obtain ⟨p, hp, h⟩ := except_bind_ok h
    obtain ⟨ps, hps, h⟩ := except_bind_ok h
    obtain ⟨r, hr, hp⟩ := except_bind_ok hp
    obtain rfl := Except.ok.inj h
    obtain rfl := Except.ok.inj hp
    intro q hq
    rcases List.mem_cons.mp hq with rfl | hq
    · exact hr
    · exact ih hps q hq

theorem exploreChunks_reported {stop : Bool} {chunks : List (List Int)} {ex ex' : Exploration}
    (h : exploreChunks once stop chunks ex = .ok ex') (hex : ex.Reported once) :
    ex'.Reported once := by
  induction chunks generalizing ex with
  | nil => exact Except.ok.inj h ▸ hex
  | cons chunk rest ih =>
    obtain ⟨results, hr, h⟩ := except_bind_ok h
    have hcollect := collect_reported stop (chunk_results hr) hex
    cases hs : (collect stop results ex).2 with
    | true =>
      simp only [hs, if_true] at h
      exact Except.ok.inj h ▸ hcollect
    | false =>
      simp only [hs, Bool.false_eq_true, if_false] at h
      exact ih h hcollect

theorem explorePool_reported {seeds : List Int} {stop : Bool} {ex : Exploration}
    (h : explorePool once seeds stop = .ok ex) : ex.Reported once := by
  obtain ⟨ex₀, h₀, h⟩ := except_bind_ok h
  have hex₀ : ex₀.Reported once :=
    exploreChunks_reported h₀ fun f hf => absurd hf List.not_mem_nil
  have hsorted : ({ex₀ with failures := ex₀.failures.mergeSort fun a b => a.seed ≤ b.seed} :
      Exploration).Reported once := fun f hf => hex₀ f (List.mem_mergeSort.mp hf)
  dsimp only at h
  split at h
  · obtain rfl := Except.ok.inj h
    exact hsorted
  · obtain ⟨first, _, h⟩ := except_bind_ok h
    obtain rfl := Except.ok.inj h
    exact hsorted

/-- What `explore` lists are failures of the campaign's own runs. -/
theorem explore_reported {L : LogText} {main : Program} {o : ExploreOptions} {spec : SchedulerSpec}
    {kw : RunKwargs} {fuel : Nat} {ex : Exploration}
    (h : explore L main o spec kw fuel R = .ok ex) :
    ∃ resolved, resolveAutoHorizon main spec o.startSeed kw fuel R = .ok resolved ∧
      ex.Reported (campaignRun L main o resolved kw fuel R) := by
  unfold explore at h
  by_cases hr : o.runs < 1
  · rw [if_pos hr] at h
    cases h
  · rw [if_neg hr] at h
    obtain ⟨resolved, hres, h⟩ := except_bind_ok h
    refine ⟨resolved, hres, ?_⟩
    by_cases hp : 1 < o.processes
    · simp only [if_pos hp] at h
      exact explorePool_reported h
    · simp only [if_neg hp] at h
      exact exploreSeeds_reported h fun f hf => absurd hf List.not_mem_nil

end Reported

/-! ### Change points -/

/-- A PCT run of depth 2 or more begins with a change point, which records the horizon. -/
theorem generated_changePoint {main : Program} {seed depth horizon : Int} {kw : RunKwargs}
    {fuel : Nat} {r : RunResult} (hd : 1 < depth)
    (h : generated main seed false (.pct (some depth) (some horizon)) kw fuel R = .ok r) :
    ∃ d rest, r.tape = d :: rest ∧ (d.bound : Int) = horizon := by
  obtain ⟨strategy, u, t', hu, rfl⟩ := execute_ok h
  obtain ⟨strategy', t₁, hresolve, hu⟩ := Taped.bind_ok hu
  obtain ⟨rfl, rfl⟩ := Prod.mk.inj (Except.ok.inj hresolve)
  obtain ⟨setting, t₂, hsetup, hu⟩ := Taped.bind_ok hu
  obtain ⟨state, t₃, hscheduler, hsetup⟩ := Taped.bind_ok hsetup
  obtain ⟨points, t₄, hpoints, hscheduler⟩ := Taped.bind_ok hscheduler
  obtain ⟨n, hn⟩ : ∃ n, (depth - 1).toNat = n + 1 := ⟨(depth - 2).toNat, by omega⟩
  rw [Option.getD_some, Option.getD_some, hn] at hpoints
  obtain ⟨point, t₅, hpoint, hpoints⟩ := Taped.bind_ok hpoints
  have hfirst : ∃ d : Draw, (d.bound : Int) = horizon ∧ t₅.draws = [d] := by
    cases horizon with
    | negSucc k => cases hpoint
    | ofNat k =>
      obtain ⟨d, _, hb, hdraws⟩ := Taped.draw_recorded hpoint
      exact ⟨d, by rw [hb]; rfl, hdraws⟩
  obtain ⟨d, hb, hdraws⟩ := hfirst
  have hrest : ∃ rest, t'.draws = t₅.draws ++ rest := by
    obtain ⟨ds₁, hds₁, _⟩ := ((records_changePoints (P := fun _ => True) trivial _ n).bind
      fun _ => Taped.records_pure _) _ _ _ hpoints
    obtain ⟨_, rfl⟩ := Prod.mk.inj (Except.ok.inj hscheduler)
    obtain ⟨ds₂, hds₂, _⟩ := ((records_checkWorld (P := fun _ => True) main _).bind
      fun _ => (records_entropySeed fun _ => trivial).bind fun _ => Taped.records_pure _)
        _ _ _ hsetup
    obtain ⟨ds₃, hds₃, _⟩ := ((records_simulate main.requests_any kw fuel setting).bind fun _ =>
      Taped.records_pure _) _ _ _ hu
    refine ⟨ds₁ ++ ds₂ ++ ds₃, ?_⟩
    rw [hds₃, hds₂, hds₁, List.append_assoc, List.append_assoc, List.append_assoc]
  obtain ⟨rest, hrest⟩ := hrest
  exact ⟨d, rest, by rw [hdraws] at hrest; exact hrest, hb⟩

/-- Without change points the horizon is never looked at. -/
theorem generated_shallow {main : Program} {seed depth : Int} {kw : RunKwargs} {fuel : Nat}
    {r : RunResult} (hd : depth ≤ 1) (horizon horizon' : Int)
    (h : generated main seed false (.pct (some depth) (some horizon)) kw fuel R = .ok r) :
    ∃ r', generated main seed false (.pct (some depth) (some horizon')) kw fuel R = .ok r' ∧
      r'.tape = r.tape ∧ r'.log = r.log ∧ r'.error = r.error := by
  have hn : (depth - 1).toNat = 0 := by omega
  obtain ⟨strategy, u, t', hu, rfl⟩ := execute_ok h
  have hu' : universeOf main (.pct (some depth) (some horizon')) kw fuel
      (Tape.generate seed : Tape R) = .ok ((.pct depth horizon', u), t') := by
    obtain ⟨strategy', t₁, hresolve, hu⟩ := Taped.bind_ok hu
    obtain ⟨rfl, rfl⟩ := Prod.mk.inj (Except.ok.inj hresolve)
    obtain ⟨setting, t₂, hsetup, hu⟩ := Taped.bind_ok hu
    obtain ⟨u', t₃, hsim, hu⟩ := Taped.bind_ok hu
    obtain ⟨hpair, rfl⟩ := Prod.mk.inj (Except.ok.inj hu)
    obtain ⟨_, rfl⟩ := Prod.mk.inj hpair
    have hsame : (setUp main (.pct depth horizon') kw : Taped R Setting) =
        setUp main (.pct depth horizon) kw := by
      simp only [setUp, scheduler, hn, changePoints]
    show (setUp main (.pct depth horizon') kw _ >>= fun p => _) = _
    rw [hsame]
    show (setUp main (.pct depth horizon) kw (Tape.generate seed) >>= fun p =>
      simulate main kw fuel p.1 p.2 >>= fun q => _) = _
    have hsetup' : setUp main (.pct depth horizon) kw (Tape.generate seed) = .ok (setting, t₂) :=
      hsetup
    rw [hsetup']
    show (simulate main kw fuel setting t₂ >>= fun q => _) = _
    rw [hsim]
    rfl
  exact ⟨_, execute_quiet hu' (some seed), rfl, rfl, rfl⟩

/-! ### Failing seeds, again -/

/-- The same tape, event log and error. -/
def RunResult.SameRun (a b : RunResult) : Prop :=
  a.tape = b.tape ∧ a.log = b.log ∧ a.error = b.error

/-- `run` of the seed alone repeats the run that the campaign made of it. -/
def Reproduces (L : LogText) (main : Program) (o : ExploreOptions) (spec : SchedulerSpec)
    (kw : RunKwargs) (fuel : Nat) (R : RandomSource) (seed : Int) : Prop :=
  ∃ resolved reported again more,
    resolveAutoHorizon main spec o.startSeed kw fuel R = .ok resolved ∧
    campaignRun L main o resolved kw fuel R seed = .ok reported ∧
    run L main seed false spec o.checkDeterminism kw (fuel + more) R = .ok again ∧
    again.SameRun reported

/-- The probe of the seed returns, and either no change point is drawn or it measures
the horizon that the probe of the start seed does. -/
def SameHorizon (main : Program) (spec : SchedulerSpec) (startSeed seed : Int) (kw : RunKwargs)
    (R : RandomSource) : Prop :=
  ∀ depth, autoPctDepth spec = some depth → ∃ fuel steps start,
    probe main seed kw fuel R = .ok steps ∧ probe main startSeed kw fuel R = .ok start ∧
      (depth ≤ 1 ∨ horizonOf steps = horizonOf start)

/-- Probes that return, return the same with any fuel that suffices. -/
theorem probe_unique {main : Program} {seed : Int} {kw : RunKwargs} {fuel fuel' a b : Nat}
    (ha : probe main seed kw fuel R = .ok a) (hb : probe main seed kw fuel' R = .ok b) : a = b := by
  have ha' := probe_mono ha fuel'
  rw [Nat.add_comm, probe_mono hb fuel] at ha'
  exact (Except.ok.inj ha').symm

/-- **When a failing seed reproduces from the seed alone**: exactly when the request
was concrete, or the seed's own probe measures the campaign's horizon, or no change
point is drawn from it. -/
theorem failure_reproduces_iff {L : LogText} {main : Program} {o : ExploreOptions}
    {spec : SchedulerSpec} {kw : RunKwargs} {fuel : Nat} {ex : Exploration}
    (h : explore L main o spec kw fuel R = .ok ex) {f : Failure} (hf : f ∈ ex.failures) :
    Reproduces L main o spec kw fuel R f.seed ↔ SameHorizon main spec o.startSeed f.seed kw R := by
  obtain ⟨resolved, hres, hreported⟩ := explore_reported h
  obtain ⟨reported, _, hrun, _, _⟩ := hreported f hf
  have hgen := (campaignRun_eq hres L o f.seed).symm.trans hrun
  cases hd : autoPctDepth spec with
  | none =>
    -- a concrete request is resolved to itself
    have hspec : resolved = spec := by
      rw [resolveAutoHorizon_none hd] at hres
      exact (Except.ok.inj hres).symm
    refine ⟨fun _ depth hdepth => ?_, fun _ => ?_⟩
    · rw [hd] at hdepth
      cases hdepth
    · refine ⟨resolved, reported, reported, 0, hres, hrun, ?_, rfl, rfl, rfl⟩
      rw [run_quiet, resolveAutoHorizon_none hd, ← hspec]
      exact hgen
  | some depth =>
    obtain ⟨start, hstart, rfl⟩ := (resolveAutoHorizon_some hd).mp hres
    constructor
    · rintro ⟨_, reported', again, more, hres', hrun', hagain, htape, _, _⟩ depth' hdepth
      obtain rfl : depth = depth' := Option.some.inj (hd.symm.trans hdepth)
      obtain rfl := Except.ok.inj (hres.symm.trans hres')
      obtain rfl := Except.ok.inj (hrun.symm.trans hrun')
      rw [run_quiet] at hagain
      obtain ⟨_, hresolve, hagain⟩ := except_bind_ok hagain
      obtain ⟨steps, hsteps, rfl⟩ := (resolveAutoHorizon_some hd).mp hresolve
      refine ⟨fuel + more, steps, start, hsteps, probe_mono hstart more, ?_⟩
      rcases Int.lt_or_le 1 depth with hdeep | hshallow
      · -- both tapes begin with a change point, drawn from the horizon
        obtain ⟨d, rest, hhead, hb⟩ := generated_changePoint hdeep hagain
        obtain ⟨d', rest', hhead', hb'⟩ := generated_changePoint hdeep hgen
        rw [hhead, hhead'] at htape
        obtain ⟨rfl, _⟩ := List.cons.inj htape
        exact .inr (hb.symm.trans hb')
      · exact .inl hshallow
    · intro hsame
      obtain ⟨fuel', steps, start', hsteps, hstart', hor⟩ := hsame depth hd
      obtain rfl := probe_unique hstart hstart'
      have hresolve : resolveAutoHorizon main spec f.seed kw (fuel + fuel') R =
          .ok (.pct (some depth) (some (horizonOf steps))) := by
        refine (resolveAutoHorizon_some hd).mpr ⟨steps, ?_, rfl⟩
        rw [Nat.add_comm]
        exact probe_mono hsteps fuel
      have hlong := generated_mono hgen fuel'
      have hagain : ∃ again, generated main f.seed false (.pct (some depth) (some (horizonOf steps)))
          kw (fuel + fuel') R = .ok again ∧ again.SameRun reported := by
        rcases hor with hshallow | hhorizon
        · obtain ⟨again, hagain, hsame⟩ := generated_shallow hshallow _ (horizonOf steps) hlong
          exact ⟨again, hagain, hsame⟩
        · exact ⟨reported, hhorizon ▸ hlong, rfl, rfl, rfl⟩
      obtain ⟨again, hagain, hsame'⟩ := hagain
      refine ⟨_, reported, again, fuel', hres, hrun, ?_, hsame'⟩
      rw [run_quiet, hresolve]
      exact hagain

/-- A main that takes another step, and fails after it, if its draw is 1. -/
def straggler : Program := lone (.draw "straggle" 2 fun
  | 1 => .sleep (.finish (some ⟨valueError, "late"⟩))
  | _ => .finish none)

/-- What `random.Random` answers from a seed: the bounds that are asked for in turn, each with
its answer. -/
def transcript : List (Int × List (Nat × Nat)) :=
  [(62, [(2, 0), (2, 0), (2, 0)]),
   (62, [(6, 4), (6, 1), (2, 0), (1024, 487)]),
   (63, [(2, 1), (2, 1), (2, 1), (3, 1), (2, 1)]),
   (63, [(6, 3), (6, 3), (2, 1), (1024, 518)]),
   (63, [(7, 3), (7, 3), (2, 1), (1024, 518)]),
   (63, [(2147483647, 955929202), (2, 1), (2, 1), (2, 1), (3, 1), (2, 0)])]

/-- The generator, as far as the transcript tells. -/
def transcriptSource : RandomSource where
  State := Int × List Nat
  seeded seed := (seed, [])
  randrange state bound h :=
    let asked := state.2 ++ [bound]
    let line := transcript.find? fun line => line.1 = state.1 ∧ asked <+: line.2.map Prod.fst
    let answer := (line.bind fun line => line.2[state.2.length]?).elim 0 Prod.snd
    (⟨answer % bound, Nat.mod_lt _ h⟩, (state.1, asked))

def shortText : LogText := ⟨fun log => toString log.length, fun _ _ => ""⟩

/-- Started at the failing seed itself, a campaign measures the seed's own horizon. -/
theorem failure_reproduces_iff_straggler :
    ∃ ex, explore shortText straggler ⟨1, 63, true, 1, true⟩ (.pctAuto none) .default 8
        transcriptSource = .ok ex ∧
      ∃ f ∈ ex.failures, Reproduces shortText straggler ⟨1, 63, true, 1, true⟩ (.pctAuto none)
        .default 8 transcriptSource f.seed := by
  obtain ⟨ex, hex, hf⟩ : ∃ ex, explore shortText straggler ⟨1, 63, true, 1, true⟩ (.pctAuto none)
      .default 8 transcriptSource = .ok ex ∧ (⟨63, "ValueError", "late"⟩ : Failure) ∈ ex.failures :=
    ok_of_computed (by decide +kernel)
  obtain ⟨steps, hsteps, -⟩ : ∃ steps, probe straggler 63 .default 8 transcriptSource = .ok steps ∧
      steps = 7 := ok_of_computed (by decide +kernel)
  exact ⟨ex, hex, _, hf, (failure_reproduces_iff hex hf).mpr fun _ _ =>
    ⟨8, steps, steps, hsteps, hsteps, .inr rfl⟩⟩

/-- Started one seed earlier it measures a shorter one, and the failing seed alone
gives another tape. -/
theorem failing_seed_replays_differently :
    ∃ ex f reported again,
      explore shortText straggler ⟨2, 62, true, 1, false⟩ (.pctAuto none) .default 8
        transcriptSource = .ok ex ∧ f ∈ ex.failures ∧
      campaignRun shortText straggler ⟨2, 62, true, 1, false⟩ (.pct (some 3) (some 6)) .default 8
        transcriptSource f.seed = .ok reported ∧
      ex.firstFailure = some reported ∧
      run shortText straggler f.seed false (.pctAuto none) false .default 8 transcriptSource =
        .ok again ∧ again.tape ≠ reported.tape := by
  let once := campaignRun shortText straggler ⟨2, 62, true, 1, false⟩ (.pct (some 3) (some 6))
    .default 8 transcriptSource
  have horizon : resolveAutoHorizon straggler (.pctAuto none) 62 .default 8 transcriptSource =
      .ok (.pct (some 3) (some 6)) := by
    obtain ⟨steps, hsteps, rfl⟩ : ∃ steps, probe straggler 62 .default 8 transcriptSource =
      .ok steps ∧ steps = 6 := ok_of_computed (by decide +kernel)
    exact (resolveAutoHorizon_some rfl).mpr ⟨6, hsteps, rfl⟩
  obtain ⟨passed, hpassed, hnone⟩ : ∃ r, once 62 = .ok r ∧ r.error = none :=
    ok_of_computed (by decide +kernel)
  obtain ⟨reported, hreported, hlate, htape⟩ : ∃ r, once 63 = .ok r ∧
      r.error = some ⟨valueError, "late"⟩ ∧ r.tape.map Draw.bound = [6, 6, 2, 1024] :=
    ok_of_computed (by decide +kernel)
  obtain ⟨again, hagain, htape'⟩ : ∃ r, run shortText straggler 63 false (.pctAuto none) false
      .default 8 transcriptSource = .ok r ∧ r.tape.map Draw.bound = [7, 7, 2, 1024] :=
    ok_of_computed (by decide +kernel)
  refine ⟨((Exploration.start.add 62 passed).keep passed |>.add 63 reported).keep reported,
    ⟨63, "ValueError", "late"⟩, reported, again, ?_, ?_, hreported, ?_, hagain, ?_⟩
  · show (resolveAutoHorizon straggler (.pctAuto none) 62 .default 8 transcriptSource >>=
      fun resolved => _) = _
    rw [horizon]
    show (once 62 >>= fun r => _) = _
    rw [hpassed]
    simp only [bind, Except.bind, hnone, Option.isSome_none, Bool.false_eq_true, false_and, if_false]
    show (once 63 >>= fun r => _) = _
    rw [hreported]
    simp only [bind, Except.bind, hlate, Option.isSome_some, true_and, if_true]
    rfl
  · simp [Exploration.add, Exploration.keep, hlate, PyException.failure, valueError]
  · simp [Exploration.add, Exploration.keep, Exploration.start, hnone, hlate]
  · intro h
    rw [h, htape] at htape'
    exact absurd htape' (by decide)

end Simloom
