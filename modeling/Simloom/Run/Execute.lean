import Simloom.Run.Taped
import Mathlib.Algebra.Group.Nat.Defs

/-! One run: `_execute`, `run` and `replay`.

A program is what the loop and the user's coroutine make of a setting: a process
for the body and, when that ends, one for the teardown. The harness sets the
universe up, runs both, and decides on the error in the source's order: the body's,
the teardown's, exceptions that reached the loop unhandled, and last what a strict
replay left over. -/
namespace Simloom
variable {R : RandomSource}

/-! ### Options -/

inductive OnUnhandled where
  | raise
  | record
deriving DecidableEq, Repr

/-- The options that the simulated program can tell apart. -/
structure LoopOptions where
  epoch : Rat
  gcInterval : Int
  maxStepsPerInstant : Int
  virtualTime : Bool
  wallEpoch : Rat
  world : Bool
  causal : Bool

/-- The keyword arguments that `run` and `replay` share. -/
structure RunKwargs where
  options : LoopOptions
  seedRandomness : Bool
  onUnhandled : OnUnhandled
  watchdog : Option Rat

def LoopOptions.default : LoopOptions := ⟨0, 1009, 1000000, false, 1704067200, true, false⟩

def RunKwargs.default : RunKwargs := ⟨.default, false, .raise, none⟩

/-! ### Programs -/

/-- How a phase of the program ends. An interrupt (`KeyboardInterrupt`, `SystemExit`)
is never recorded as the run's error. -/
inductive Exit where
  | returned
  | raised (e : PyException)
  | interrupted (e : PyException)

/-- A scheduler after its construction; a PCT one has its change points. -/
inductive SchedulerState where
  | randomWalk
  | pct (changePoints : List Nat)

/-- What the program runs in: the scheduler, the entropy seed if one was drawn. -/
structure Setting where
  scheduler : SchedulerState
  entropy : Option Nat
  options : LoopOptions

/-- The universe after teardown. -/
structure TeardownEnd where
  exit : Exit
  unhandled : List String
  log : List Event
  now : Rat
  coverage : List (String × Nat)

/-- The universe after `main` and the liveness monitors' last check. -/
structure BodyEnd where
  exit : Exit
  teardown : Process TeardownEnd

/-- `wantsWorld` is `_wants_world(main)`, which may refuse the signature. -/
structure Program where
  wantsWorld : Except PyException Bool
  body : Setting → Process BodyEnd

/-! ### Set-up -/

def raise {α : Type} (e : PyException) : Taped R α := Taped.fail (.raised e)

/-- One change point of a PCT scheduler. -/
def changePoint : Int → Taped R Nat
  | .ofNat horizon => Taped.draw "pct.change" horizon
  | .negSucc n => raise ⟨valueError, "draw bound must be >= 1, got " ++ toString (Int.negSucc n)⟩

def changePoints (horizon : Int) : Nat → Taped R (List Nat)
  | 0 => pure []
  | n + 1 => do
    let point ← changePoint horizon
    let points ← changePoints horizon n
    return point :: points

/-- Construct the scheduler: `max(0, depth - 1)` change points for PCT. -/
def scheduler : Strategy → Taped R SchedulerState
  | .random => pure .randomWalk
  | .pct depth horizon => do
    let points ← changePoints horizon (depth - 1).toNat
    return .pct points

def resolve (spec : SchedulerSpec) : Taped R Strategy :=
  match resolveScheduler spec with
  | .ok strategy => pure strategy
  | .error e => raise e

/-- The entropy seed, the environment's one draw. -/
def entropySeed (seedRandomness : Bool) : Taped R (Option Nat) :=
  if seedRandomness then do
    let seed ← Taped.draw "entropy.seed" (2 ^ 31 - 1)
    return some seed
  else pure none

/-- A `World` parameter needs a world. -/
def checkWorld (main : Program) (world : Bool) : Taped R Unit :=
  match main.wantsWorld with
  | .error e => raise e
  | .ok wants =>
    if wants && !world then
      raise ⟨typeError, "main declares a World parameter but world=False; pass world=True " ++
        "(the default) or remove the parameter"⟩
    else pure ()

def setUp (main : Program) (strategy : Strategy) (kw : RunKwargs) : Taped R Setting := do
  let state ← scheduler strategy
  checkWorld main kw.options.world
  let entropy ← entropySeed kw.seedRandomness
  return ⟨state, entropy, kw.options⟩

/-! ### The run -/

/-- The error of a phase; an interrupt goes on. -/
def Exit.check : Exit → Taped R (Option PyException)
  | .returned => pure none
  | .raised e => pure (some e)
  | .interrupted e => raise e

/-- After a misalignment the teardown gets fallback draws. -/
def prepareTeardown (error : Option PyException) : Taped R Unit := fun t =>
  .ok ((), if error.any PyException.isMisalignment then t.forceFallback else t)

def unhandledError (messages : List String) : PyException :=
  ⟨unhandledExceptionError, toString messages.length ++
    " exception(s) reached the loop unhandled; first: " ++ messages.headD ""⟩

/-- The run's own error: the body's, the teardown's, or unhandled exceptions. -/
def ownError (on : OnUnhandled) (body teardown : Option PyException) (unhandled : List String) :
    Option PyException :=
  match body, teardown with
  | some e, _ => some e
  | none, some e => some e
  | none, none =>
    if on = .raise ∧ unhandled ≠ [] then some (unhandledError unhandled) else none

/-- What the program made of its setting. -/
structure Universe where
  error : Option PyException
  log : List Event
  now : Rat
  coverage : List (String × Nat)

def simulate (main : Program) (kw : RunKwargs) (fuel : Nat) (setting : Setting) :
    Taped R Universe := do
  let body ← Taped.process (main.body setting) fuel
  let error ← body.exit.check
  prepareTeardown error
  let teardown ← Taped.process body.teardown fuel
  let teardownError ← teardown.exit.check
  return ⟨ownError kw.onUnhandled error teardownError teardown.unhandled, teardown.log,
    teardown.now, teardown.coverage⟩

/-- A strict replay that otherwise went well must have consumed its recording. -/
def leftoverError (t : Tape R) : Option PyException :=
  if t.isReplay ∧ t.policy = .strict ∧ t.replayExact = false then
    some ⟨tapeMisalignmentError, "replay finished after consuming " ++ toString t.position ++
      " of " ++ toString (t.recordedLength.getD 0) ++
      " recorded draws: the execution diverged from the recording"⟩
  else none

def runStart (epoch : Rat) : Event := ⟨"run_start", epoch, []⟩

def runEnd (now : Rat) (error : Option PyException) : Event :=
  ⟨"run_end", now, [("outcome", .str (if error.isSome then "error" else "ok")),
    ("error", (error.map fun e => Json.str e.type.name).getD .null)]⟩

/-- The report of a finished universe, given its final error. -/
def Universe.report (u : Universe) (epoch : Rat) (error : Option PyException) : Report :=
  ⟨error, [runStart epoch] ++ u.log ++ [runEnd u.now error], u.coverage⟩

/-- The whole universe on its tape, up to the leftover check. -/
def universeOf (main : Program) (spec : SchedulerSpec) (kw : RunKwargs) (fuel : Nat) :
    Taped R (Strategy × Universe) := do
  let strategy ← resolve spec
  let setting ← setUp main strategy kw
  let u ← simulate main kw fuel setting
  return (strategy, u)

/-- `_execute`: the result, or the exception that got out. -/
def execute (main : Program) (t : Tape R) (seed : Option Int) (raiseOnError : Bool)
    (spec : SchedulerSpec) (kw : RunKwargs) (fuel : Nat) : Except Halt RunResult :=
  match universeOf main spec kw fuel t with
  | .error h => .error h
  | .ok ((strategy, u), t') =>
    let error := u.error.or (leftoverError t')
    match error, raiseOnError with
    | some e, true => .error (.raised e)
    | _, _ => .ok ((u.report kw.options.epoch error).result seed t'.draws strategy)

/-- `replay` of a list of draws. -/
def replay (main : Program) (recorded : List Draw) (policy : MisalignmentPolicy)
    (fallbackSeed : Int) (fallback : Fallback) (raiseOnError : Bool) (spec : SchedulerSpec)
    (kw : RunKwargs) (fuel : Nat) (R : RandomSource) : Except Halt RunResult :=
  execute main (Tape.replay recorded policy fallbackSeed fallback : Tape R) none raiseOnError spec
    kw fuel

/-! ### Results that did not raise -/

/-- What a result that was returned says about the run. -/
theorem execute_ok {main : Program} {t : Tape R} {seed : Option Int} {raiseOnError : Bool}
    {spec : SchedulerSpec} {kw : RunKwargs} {fuel : Nat} {r : RunResult}
    (h : execute main t seed raiseOnError spec kw fuel = .ok r) :
    ∃ strategy u t', universeOf main spec kw fuel t = .ok ((strategy, u), t') ∧
      r = (u.report kw.options.epoch (u.error.or (leftoverError t'))).result seed t'.draws
        strategy := by
  unfold execute at h
  cases hu : universeOf main spec kw fuel t with
  | error e => rw [hu] at h; cases h
  | ok a =>
    obtain ⟨⟨strategy, u⟩, t'⟩ := a
    rw [hu] at h
    refine ⟨strategy, u, t', rfl, ?_⟩
    cases he : u.error.or (leftoverError t') with
    | none =>
      simp only [he] at h
      exact (Except.ok.inj h).symm
    | some e =>
      simp only [he] at h
      cases raiseOnError with
      | true => cases h
      | false => exact (Except.ok.inj h).symm

theorem execute_quiet {main : Program} {t t' : Tape R} {spec : SchedulerSpec} {kw : RunKwargs}
    {fuel : Nat} {strategy : Strategy} {u : Universe}
    (h : universeOf main spec kw fuel t = .ok ((strategy, u), t')) (seed : Option Int) :
    execute main t seed false spec kw fuel = .ok ((u.report kw.options.epoch
      (u.error.or (leftoverError t'))).result seed t'.draws strategy) := by
  unfold execute
  rw [h]
  cases he : u.error.or (leftoverError t') <;> simp only [he]

/-! ### The phases are faithful -/

theorem faithful_raise {α : Type} (e : PyException) (Q : α → Prop) :
    (raise e : Taped R α).Faithful Q := Taped.faithful_fail _ Q

theorem faithful_changePoints (horizon : Int) (n : Nat) :
    (changePoints horizon n : Taped R (List Nat)).Faithful fun _ => True := by
  induction n with
  | zero => exact Taped.faithful_pure _ _
  | succ n ih =>
    have hpoint : (changePoint horizon : Taped R Nat).Faithful fun _ => True := by
      cases horizon with
      | ofNat k => exact Taped.faithful_draw _ _
      | negSucc k => exact faithful_raise _ _
    exact hpoint.bind fun _ => ih.bind fun _ => Taped.faithful_pure _ _

theorem faithful_setUp (main : Program) (strategy : Strategy) (kw : RunKwargs) :
    (setUp main strategy kw : Taped R Setting).Faithful fun _ => True := by
  have hscheduler : (scheduler strategy : Taped R SchedulerState).Faithful fun _ => True := by
    cases strategy with
    | random => exact Taped.faithful_pure _ _
    | pct depth horizon => exact (faithful_changePoints _ _).bind fun _ => Taped.faithful_pure _ _
  have hworld : (checkWorld main kw.options.world : Taped R Unit).Faithful fun _ => True := by
    unfold checkWorld
    split
    · exact faithful_raise _ _
    · split
      · exact faithful_raise _ _
      · exact Taped.faithful_pure _ _
  have hentropy : (entropySeed kw.seedRandomness : Taped R (Option Nat)).Faithful
      fun _ => True := by
    unfold entropySeed
    split
    · exact (Taped.faithful_draw _ _).bind fun _ => Taped.faithful_pure _ _
    · exact Taped.faithful_pure _ _
  exact hscheduler.bind fun _ => hworld.bind fun _ => hentropy.bind fun _ =>
    Taped.faithful_pure _ _

theorem faithful_check (x : Exit) (Q : Option PyException → Prop) :
    (x.check : Taped R (Option PyException)).Faithful Q := by
  cases x with
  | returned => exact Taped.faithful_pure _ Q
  | raised e => exact Taped.faithful_pure _ Q
  | interrupted e => exact faithful_raise e Q

theorem ownError_some (on : OnUnhandled) (e : PyException) (teardown : Option PyException)
    (unhandled : List String) : ownError on (some e) teardown unhandled = some e := rfl

/-- A universe that does not end in a misalignment is faithful: only after one does
the harness touch the tape itself. -/
theorem faithful_simulate (main : Program) (kw : RunKwargs) (fuel : Nat) (setting : Setting) :
    (simulate main kw fuel setting : Taped R Universe).Faithful fun u =>
      u.error.any PyException.isMisalignment = false := by
  refine (Taped.faithful_process _ fuel).bind fun body => ?_
  refine (faithful_check body.exit _).bind fun error => ?_
  by_cases he : error.any PyException.isMisalignment = true
  · -- the body's error is the universe's: nothing is claimed
    intro t t' u h _ hu
    obtain ⟨e, rfl⟩ : ∃ e, error = some e := by
      cases error with
      | none => cases he
      | some e => exact ⟨e, rfl⟩
    obtain ⟨_, t₁, _, h⟩ := Taped.bind_ok h
    obtain ⟨teardown, t₂, _, h⟩ := Taped.bind_ok h
    obtain ⟨error', t₃, _, h⟩ := Taped.bind_ok h
    rw [← (Prod.mk.inj (Except.ok.inj h)).1] at hu
    exact absurd hu (by rw [ownError_some, he]; decide)
  · have hprepare : (prepareTeardown error : Taped R Unit) = pure () := by
      funext t
      rw [prepareTeardown, if_neg he]
      rfl
    rw [hprepare]
    refine (Taped.faithful_pure _ _).bind fun _ => ?_
    refine (Taped.faithful_process _ fuel).bind fun teardown => ?_
    exact (faithful_check teardown.exit _).bind fun _ => Taped.faithful_pure _ _

theorem faithful_universeOf (main : Program) (spec : SchedulerSpec) (kw : RunKwargs) (fuel : Nat) :
    (universeOf main spec kw fuel : Taped R (Strategy × Universe)).Faithful fun a =>
      a.2.error.any PyException.isMisalignment = false := by
  have hresolve : (resolve spec : Taped R Strategy).Faithful fun _ => True := by
    unfold resolve
    split
    · exact Taped.faithful_pure _ _
    · exact faithful_raise _ _
  refine hresolve.bind fun strategy => (faithful_setUp main strategy kw).bind fun setting => ?_
  intro t t' a h hw hQ
  obtain ⟨u, t₁, hu, ha⟩ := Taped.bind_ok h
  obtain ⟨rfl, rfl⟩ := Prod.mk.inj (Except.ok.inj ha)
  obtain ⟨ds, hds, hsame, hrep⟩ := faithful_simulate main kw fuel setting t t₁ u hu hw hQ
  refine ⟨ds, hds, hsame, ?_⟩
  have hbind := hrep.bind (f := fun u => pure (strategy, u)) (Taped.repeats_pure (strategy, u))
  rw [List.append_nil] at hbind
  exact hbind

/-- The strategy of a run is what its request resolved to. -/
theorem universeOf_strategy {main : Program} {spec : SchedulerSpec} {kw : RunKwargs} {fuel : Nat}
    {t t' : Tape R} {strategy : Strategy} {u : Universe}
    (h : universeOf main spec kw fuel t = .ok ((strategy, u), t')) :
    resolveScheduler spec = .ok strategy := by
  obtain ⟨s, t₁, hs, h⟩ := Taped.bind_ok h
  obtain ⟨setting, t₂, _, h⟩ := Taped.bind_ok h
  obtain ⟨u', t₃, _, h⟩ := Taped.bind_ok h
  obtain ⟨ha, _⟩ := Prod.mk.inj (Except.ok.inj h)
  obtain ⟨rfl, _⟩ := Prod.mk.inj ha
  unfold resolve at hs
  cases hr : resolveScheduler spec with
  | error e => rw [hr] at hs; cases hs
  | ok s' =>
    rw [hr] at hs
    obtain ⟨rfl, _⟩ := Prod.mk.inj (Except.ok.inj hs)
    rfl

theorem universeOf_congr (main : Program) {spec spec' : SchedulerSpec} (kw : RunKwargs)
    (fuel : Nat) (h : resolveScheduler spec = resolveScheduler spec') :
    (universeOf main spec kw fuel : Taped R (Strategy × Universe)) =
      universeOf main spec' kw fuel := by
  unfold universeOf resolve
  rw [h]

/-- A tape that cannot refuse has nothing to check at the end. -/
theorem leftoverError_willing {t : Tape R} (h : t.Willing) : leftoverError t = none := by
  refine if_neg fun ⟨hr, hp, _⟩ => ?_
  rcases h with h | h
  · rw [Tape.isReplay, h] at hr
    cases hr
  · rw [h] at hp
    cases hp

theorem leftoverError_exact {t : Tape R} (h : t.replayExact = true) : leftoverError t = none :=
  if_neg fun ⟨_, _, hx⟩ => by rw [h] at hx; cases hx

/-- **A recorded run replays.** Whatever returned from a fresh tape that could not
refuse, and did not end in a misalignment, the strict replay of its draws under its
strategy and options returns again, with everything but the seed. -/
theorem replay_recorded {main : Program} {t : Tape R} {seed : Option Int} {spec : SchedulerSpec}
    {kw : RunKwargs} {fuel : Nat} {r : RunResult} (ht : t.draws = []) (hw : t.Willing)
    (h : execute main t seed false spec kw fuel = .ok r)
    (he : r.error.any PyException.isMisalignment = false) (fallbackSeed : Int)
    (fallback : Fallback) :
    replay main r.tape .strict fallbackSeed fallback false r.scheduler.spec kw fuel R =
      .ok (r.report.result none r.tape r.scheduler) := by
  obtain ⟨strategy, u, t', hu, hr⟩ := execute_ok h
  have hspec : resolveScheduler spec = resolveScheduler strategy.spec := by
    rw [universeOf_strategy hu, resolveScheduler_spec]
  have herr : r.error = u.error.or (leftoverError t') := by rw [hr]; rfl
  -- the recording's end needs no check: its tape is as willing as it was
  have hsame : t.SameSource t' → leftoverError t' = none := fun hs =>
    leftoverError_willing (hw.same hs)
  have hmis : u.error.any PyException.isMisalignment = false := by
    cases hue : u.error with
    | none => rfl
    | some e => rw [herr, hue] at he; exact he
  obtain ⟨ds, hds, hs, hrep⟩ := faithful_universeOf main spec kw fuel t t' _ hu hw hmis
  rw [hsame hs] at hr
  have htape : r.tape = ds := by
    rw [hr, ← List.nil_append ds, ← ht]
    exact hds
  have hfeed : (Tape.replay r.tape .strict fallbackSeed fallback : Tape R).Feeding (ds ++ []) := by
    rw [List.append_nil, htape]
    exact Tape.replay_feeding _ _ _ _
  obtain ⟨u', hu', hfeed', hdraws, _⟩ := hrep _ [] hfeed
  rw [universeOf_congr main kw fuel hspec] at hu'
  have hsched : r.scheduler = strategy := by rw [hr]; rfl
  rw [replay, hsched, execute_quiet hu', leftoverError_exact (hfeed'.replayExact.mpr rfl)]
  have hdraws' : u'.draws = r.tape := by
    rw [hdraws, htape]
    rfl
  rw [hdraws', hr]
  rfl

/-! ### Fuel and labels -/

theorem universeOf_extends (main : Program) (spec : SchedulerSpec) (kw : RunKwargs)
    (fuel more : Nat) : (universeOf main spec kw fuel : Taped R (Strategy × Universe)).Extends
      (universeOf main spec kw (fuel + more)) := by
  refine (Taped.Extends.refl _).bind fun strategy => (Taped.Extends.refl _).bind fun setting => ?_
  refine Taped.Extends.bind ?_ fun u => Taped.Extends.refl _
  refine (Taped.process_extends _ fuel more).bind fun body => ?_
  refine (Taped.Extends.refl _).bind fun error => (Taped.Extends.refl _).bind fun _ => ?_
  exact (Taped.process_extends _ fuel more).bind fun _ => Taped.Extends.refl _

/-- The program requests only labels that satisfy `P`, also while it is torn down. -/
def Program.Requests (main : Program) (P : String → Prop) : Prop :=
  ∀ setting, (main.body setting).Requests P ∧
    ∀ replies b, main.body setting replies = .finish b → b.teardown.Requests P

theorem Program.requests_any (main : Program) : main.Requests fun _ => True :=
  fun _ => ⟨Process.requests_any _, fun _ _ _ => Process.requests_any _⟩

section Labels
variable {P : String → Prop}

theorem records_changePoints (h : P "pct.change") (horizon : Int) (n : Nat) :
    (changePoints horizon n : Taped R (List Nat)).Records P := by
  have hpoint : (changePoint horizon : Taped R Nat).Records P := by
    cases horizon with
    | ofNat k => exact Taped.records_draw h k
    | negSucc k => exact Taped.records_fail _
  induction n with
  | zero => exact Taped.records_pure _
  | succ n ih => exact hpoint.bind fun _ => ih.bind fun _ => Taped.records_pure _

theorem records_check (x : Exit) : (x.check : Taped R (Option PyException)).Records P := by
  cases x with
  | returned => exact Taped.records_pure _
  | raised e => exact Taped.records_pure _
  | interrupted e => exact Taped.records_fail _

theorem records_checkWorld (main : Program) (world : Bool) :
    (checkWorld main world : Taped R Unit).Records P := by
  unfold checkWorld
  split
  · exact Taped.records_fail _
  · split
    · exact Taped.records_fail _
    · exact Taped.records_pure _

theorem records_entropySeed {seedRandomness : Bool}
    (h : seedRandomness = true → P "entropy.seed") :
    (entropySeed seedRandomness : Taped R (Option Nat)).Records P := by
  cases seedRandomness with
  | false => exact Taped.records_pure _
  | true => exact (Taped.records_draw (h rfl) _).bind fun _ => Taped.records_pure _

theorem records_simulate {main : Program} (hmain : main.Requests P) (kw : RunKwargs) (fuel : Nat)
    (setting : Setting) : (simulate main kw fuel setting : Taped R Universe).Records P := by
  intro t t' u h
  obtain ⟨body, t₁, hbody, h⟩ := Taped.bind_ok h
  obtain ⟨⟨ds, hds, hall⟩, replies, hfinish⟩ :=
    Process.run_records (hmain setting).1 (Taped.process_ok hbody)
  -- only the teardown draws after the body
  have hteardown : (Taped.process body.teardown fuel : Taped R TeardownEnd).Records P :=
    fun _ _ _ hw => (Process.run_records ((hmain setting).2 replies body hfinish) (Taped.process_ok hw)).1
  have hprepare : ∀ error, (prepareTeardown error : Taped R Unit).Records P := by
    intro error v w a hw
    obtain ⟨_, rfl⟩ := Prod.mk.inj (Except.ok.inj hw)
    refine ⟨[], ?_, fun d hd => absurd hd List.not_mem_nil⟩
    split
    · rw [v.forceFallback_draws, List.append_nil]
    · rw [List.append_nil]
  obtain ⟨ds', hds', hall'⟩ := ((records_check body.exit).bind fun error =>
    (hprepare error).bind fun _ => Taped.Records.bind hteardown fun teardown =>
      (records_check teardown.exit).bind fun _ => Taped.records_pure _) _ _ _ h
  refine ⟨ds ++ ds', by rw [hds', hds, List.append_assoc], fun d hd => ?_⟩
  exact (List.mem_append.mp hd).elim (hall d) (hall' d)

theorem records_setUp {main : Program} {strategy : Strategy} {kw : RunKwargs}
    (hpoint : strategy ≠ .random → P "pct.change")
    (hentropy : kw.seedRandomness = true → P "entropy.seed") :
    (setUp main strategy kw : Taped R Setting).Records P := by
  refine Taped.Records.bind ?_ fun _ => (records_checkWorld main _).bind fun _ =>
    (records_entropySeed hentropy).bind fun _ => Taped.records_pure _
  cases strategy with
  | random => exact Taped.records_pure _
  | pct depth horizon =>
    have hp : P "pct.change" := hpoint fun h => by cases h
    exact (records_changePoints hp _ _).bind fun _ => Taped.records_pure _

end Labels

end Simloom
