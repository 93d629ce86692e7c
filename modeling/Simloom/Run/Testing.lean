import Simloom.Run.Explore
import Simloom.Run.Strict
import Simloom.Search.Shrink
import Simloom.Search.Systematic

/-! The `@simloom.test` decorator.

A test samples seeds or searches systematically, shrinks its first failure, writes
the tapes as artifacts and raises with the errors they reproduce. Every failure was
recorded on a tape that cannot refuse, so its strict replay repeats it under the
options it was recorded with (`replay_recorded`). The systematic search records
without the entropy seed, whatever the test's options say, and the replay of a tape
file asks for it when they do. -/
namespace Simloom
variable {R : RandomSource}

/-! ### Tests -/

/-- A file that a test wrote: the document, and the strategy it names. -/
structure Artifact where
  path : String
  document : List (String × Json)
  scheduler : Option Strategy

structure Settings where
  seedOverride : Option Int
  runsOverride : Option Int
  tapePath : Option Artifact
  artifactDir : Option String
  shrinkEnabled : Bool
  forceCheckDeterminism : Bool

structure TestOptions where
  name : String
  runs : Int
  scheduler : SchedulerSpec
  startSeed : Int
  shrinkBudget : Nat
  requireCoverage : List String
  checkDeterminism : Bool
  systematic : Bool
  maxDelays : Nat
  kw : RunKwargs

/-- A `SimloomTestFailure`: its text, the error it is raised from, and the files it
mentions, each with the error that the text gives for it. -/
structure TestFailure where
  text : String
  cause : Option PyException
  reported : List (Artifact × PyException)

inductive TestEnd where
  | passed
  | failed (f : TestFailure)

/-- How a test ends in something else. -/
inductive TestHalt where
  | halted (h : Halt)
  | unreadable (e : DocumentError)

/-- A call made by the test; what it raises goes on. -/
def calling {α : Type} : Except Halt α → Except TestHalt α
  | .ok a => .ok a
  | .error h => .error (.halted h)

/-! ### Texts -/

def truncated (n : Nat) (s : String) : String := String.ofList (s.toList.take n)

def PyException.shown (e : PyException) (n : Nat) : String :=
  e.type.name ++ ": " ++ truncated n e.message

def shownOption (n : Option Int) : String := (n.map toString).getD "None"

/-- `describe()`, line by line. -/
def ShrinkResult.describe (sr : ShrinkResult) : List String :=
  let interesting := (sr.tape.zipIdx).filter fun p => p.1.value ≠ 0
  ["shrunk: " ++ toString sr.initialLength ++ " draws -> " ++ toString sr.tape.length ++
      ", schedule deviations " ++ toString sr.initialDeviations ++ " -> " ++
      toString (deviations sr.tape) ++ " (" ++ toString sr.runsUsed ++ " candidate runs)"] ++
    (if interesting.isEmpty then ["minimal schedule: pure FIFO (every draw forced to 0)"]
      else "minimal schedule: FIFO everywhere except:" :: interesting.map fun p =>
        "  draw #" ++ toString p.2 ++ ": " ++ p.1.label ++ " = " ++ toString p.1.value ++
          " (of " ++ toString p.1.bound ++ ")") ++
    (sr.result.error.map fun e => "reproduces: " ++ e.shown 160).toList

/-- `text.replace("\n", "\n  ")`, with the first line indented too. -/
def indented (lines : List String) : String :=
  "  " ++ String.ofList (("\n".intercalate lines).toList.flatMap fun c =>
    if c = '\n' then ['\n', ' ', ' '] else [c])

/-! ### Artifacts -/

/-- The tape document of a file, with the seed that its header gives. -/
def tapeArtifact (path : String) (tape : List Draw) (seed : Option Int) (scheduler : Strategy) :
    Artifact := ⟨path, serializeDraws tape seed, some scheduler⟩

/-- `_write_artifacts`: the failing tape and the shrunk one, if there is a directory. -/
def writeArtifacts (name : String) (failure : RunResult) (shrunk : Option ShrinkResult)
    (directory : Option String) : List Artifact :=
  match directory with
  | none => []
  | some directory =>
    let stem := directory ++ "/" ++ name ++ "-seed" ++ shownOption failure.seed
    tapeArtifact (stem ++ ".tape.json") failure.tape failure.seed failure.scheduler ::
      (shrunk.map fun sr =>
        tapeArtifact (stem ++ ".shrunk.tape.json") sr.tape none sr.result.scheduler).toList

/-- The failure of a test: `head` are the lines before the shrinker's. -/
def testFailure (o : TestOptions) (settings : Settings) (failure : RunResult) (error : PyException)
    (shrunk : Option ShrinkResult) (head : List String) : TestFailure :=
  let artifacts := writeArtifacts o.name failure shrunk settings.artifactDir
  let errors := error :: ((shrunk.bind fun sr => sr.result.error).toList)
  let note := if artifacts.isEmpty then []
    else ["  artifacts: " ++ ", ".intercalate (artifacts.map Artifact.path)]
  let lines := head ++ (shrunk.map fun sr => indented sr.describe).toList ++ note
  ⟨"\n".intercalate lines, some error, artifacts.zip errors⟩

/-! ### One test -/

def assertionError : PyException :=
  ⟨⟨"AssertionError", ["Exception", "BaseException"]⟩, ""⟩

/-- The candidates of the shrinker and the plans of the search are executed alike: with
zero refill. -/
def refilled (main : Program) (spec : SchedulerSpec) (kw : RunKwargs) (fuel : Nat)
    (R : RandomSource) (plan : List Draw) : Except Halt RunResult :=
  replay main plan .fallback 0 .zero false spec kw fuel R

/-- Shrink the failure, if that is enabled, under its own strategy. -/
def shrunkIf (enabled : Bool) (main : Program) (failure : RunResult) (budget : Nat)
    (kw : RunKwargs) (fuel : Nat) (R : RandomSource) : Except Halt (Option ShrinkResult) :=
  if enabled then
    (shrink (refilled main failure.scheduler.spec kw fuel R) failure budget none).map some
  else .ok none

/-- The replay that a tape file asks for. -/
def replayedFile (main : Program) (file : Artifact) (draws : List Draw) (scheduler : SchedulerSpec)
    (kw : RunKwargs) (fuel : Nat) (R : RandomSource) : Except Halt RunResult :=
  replay main draws .strict 0 .rng false ((file.scheduler.map Strategy.spec).getD scheduler) kw fuel R

def fileFailure (file : Artifact) (e : PyException) : TestFailure :=
  ⟨"tape " ++ file.path ++ " reproduces: " ++ e.type.name ++ ": " ++ e.message, some e, []⟩

/-- `_replay_tape_file`. -/
def replayTapeFile (main : Program) (file : Artifact) (scheduler : SchedulerSpec) (kw : RunKwargs)
    (fuel : Nat) (R : RandomSource) : Except TestHalt TestEnd :=
  match drawsFromDict file.document with
  | .error e => .error (.unreadable e)
  | .ok draws => do
    let result ← calling (replayedFile main file draws scheduler kw fuel R)
    match result.error with
    | none => return .passed
    | some e => return .failed (fileFailure file e)

/-- `_execute_systematic`: the search itself never seeds randomness. -/
def executeSystematic (main : Program) (o : TestOptions) (settings : Settings) (fuel : Nat)
    (R : RandomSource) : Except TestHalt TestEnd := do
  let kw := {o.kw with seedRandomness := false}
  let result ← calling (exploreSystematic (refilled main .unspecified kw fuel R)
    ⟨o.maxDelays, 100000, 256, true⟩)
  if result.failed then
    match result.first with
    | none => .error (.halted (.raised assertionError))
    | some failure =>
      match failure.error with
      | none => .error (.halted (.raised assertionError))
      | some error => do
        let shrunk ← calling
          (shrunkIf settings.shrinkEnabled main failure o.shrinkBudget o.kw fuel R)
        return .failed (testFailure o settings failure error shrunk
          ["simloom systematic search found a failing interleaving for " ++ o.name,
           "  delays: " ++ toString (result.firstFailureDelays.getD 0) ++
             " (non-default scheduling choices); schedule " ++
             toString (result.firstFailureAt.getD 0) ++ " of " ++ toString result.schedules ++
             " explored",
           "  error: " ++ error.shown 300,
           "  re-run: save the artifact tape and replay with --simloom-tape"])
  else return .passed

/-- The sampling mode. -/
def executeSampling (L : LogText) (main : Program) (o : TestOptions) (settings : Settings)
    (fuel : Nat) (R : RandomSource) : Except TestHalt TestEnd := do
  let check := o.checkDeterminism || settings.forceCheckDeterminism
  let runs := match settings.runsOverride with
    | some n => if n = 0 then o.runs else n
    | none => o.runs
  let ex ← calling (explore L main ⟨runs, o.startSeed, true, 1, check⟩ o.scheduler o.kw fuel R)
  match ex.failures with
  | [] =>
    let missing := o.requireCoverage.filter fun label => (ex.coverage.get? label).getD 0 = 0
    if missing.isEmpty then return .passed
    else return .failed ⟨"no failures in " ++ toString ex.runs ++
      " universes, but required coverage was never reached: " ++ ", ".intercalate missing ++
      " — the corpus did not exercise the paths this test is about", none, []⟩
  | _ :: _ =>
    match ex.firstFailure with
    | none => .error (.halted (.raised assertionError))
    | some failure =>
      match failure.error with
      | none => .error (.halted (.raised assertionError))
      | some error => do
        let shrunk ← calling
          (shrunkIf settings.shrinkEnabled main failure o.shrinkBudget o.kw fuel R)
        return .failed (testFailure o settings failure error shrunk
          ["simloom found a failing universe for " ++ o.name,
           "  seed: " ++ shownOption failure.seed ++ "   (re-run: pytest -k " ++ o.name ++
             " --simloom-seed=" ++ shownOption failure.seed ++ ")",
           "  error: " ++ error.shown 300,
           "  explored: " ++ toString ex.runs ++ " universe(s); " ++
             toString ex.failures.length ++ " failed"])

/-- `_execute` of the decorated test. -/
def executeTest (L : LogText) (main : Program) (o : TestOptions) (settings : Settings)
    (fuel : Nat) (R : RandomSource) : Except TestHalt TestEnd :=
  match settings.tapePath, settings.seedOverride with
  | some file, _ => replayTapeFile main file o.scheduler o.kw fuel R
  | none, none =>
    if o.systematic then executeSystematic main o settings fuel R
    else executeSampling L main o settings fuel R
  | none, some seed => do
    let check := o.checkDeterminism || settings.forceCheckDeterminism
    let result ← calling (run L main seed false o.scheduler check o.kw fuel R)
    match result.error with
    | none => return .passed
    | some e => return .failed ⟨"seed " ++ toString seed ++ " fails: " ++ e.type.name ++ ": " ++
        e.message, some e, []⟩

/-! ### Recorded failures -/

/-- The result was returned by a run on a fresh tape that cannot refuse. -/
def Program.Recorded (main : Program) (kw : RunKwargs) (fuel : Nat) (R : RandomSource)
    (r : RunResult) : Prop :=
  ∃ (t : Tape R) (seed : Option Int) (spec : SchedulerSpec), t.draws = [] ∧ t.Willing ∧
    execute main t seed false spec kw fuel = .ok r

theorem generated_recorded {main : Program} {seed : Int} {spec : SchedulerSpec} {kw : RunKwargs}
    {fuel : Nat} {r : RunResult} (h : generated main seed false spec kw fuel R = .ok r) :
    main.Recorded kw fuel R r :=
  ⟨Tape.generate seed, some seed, spec, rfl, Tape.generate_willing seed, h⟩

theorem refilled_recorded {main : Program} {spec : SchedulerSpec} {kw : RunKwargs} {fuel : Nat}
    {plan : List Draw} {r : RunResult} (h : refilled main spec kw fuel R plan = .ok r) :
    main.Recorded kw fuel R r :=
  ⟨Tape.replay plan .fallback 0 .zero, none, spec, rfl, Tape.fallback_willing plan 0 .zero, h⟩

theorem calling_ok {α : Type} {x : Except Halt α} {a : α} (h : calling x = .ok a) : x = .ok a := by
  cases x with
  | error e => cases h
  | ok b => exact congrArg Except.ok (Except.ok.inj h)

theorem calling_bind_ok {α β : Type} {x : Except Halt α} {f : α → Except TestHalt β} {b : β}
    (h : calling x >>= f = .ok b) : ∃ a, x = .ok a ∧ f a = .ok b := by
  cases hx : calling x with
  | error e => rw [hx] at h; cases h
  | ok a =>
    rw [hx] at h
    exact ⟨a, calling_ok hx, h⟩

/-- The artifact of a campaign is a recorded run. -/
theorem explore_first {L : LogText} {main : Program} {o : ExploreOptions} {spec : SchedulerSpec}
    {kw : RunKwargs} {fuel : Nat} {ex : Exploration} {r : RunResult}
    (h : explore L main o spec kw fuel R = .ok ex) (hp : ¬ 1 < o.processes)
    (hr : ex.firstFailure = some r) : main.Recorded kw fuel R r := by
  unfold explore at h
  by_cases hn : o.runs < 1
  · rw [if_pos hn] at h
    cases h
  · rw [if_neg hn] at h
    obtain ⟨resolved, hres, h⟩ := except_bind_ok h
    simp only [if_neg hp] at h
    obtain ⟨seed, hs⟩ := exploreSeeds_first h (fun r hr => by cases hr) r hr
    rw [campaignRun_eq hres] at hs
    exact generated_recorded hs

/-- What shrinking leaves is the failure or another recorded run, with its tape. -/
theorem shrunkIf_recorded {enabled : Bool} {main : Program} {failure : RunResult} {budget : Nat}
    {kw : RunKwargs} {fuel : Nat} {sr : ShrinkResult} {error : PyException}
    (h : shrunkIf enabled main failure budget kw fuel R = .ok (some sr))
    (he : failure.error = some error) :
    sr.result.tape = sr.tape ∧ (sr.result = failure ∨ main.Recorded kw fuel R sr.result) := by
  unfold shrunkIf at h
  cases enabled with
  | false => cases h
  | true =>
    cases hs : shrink (refilled main failure.scheduler.spec kw fuel R) failure budget none with
    | error e => simp only [hs] at h; cases h
    | ok sr' =>
      simp only [hs] at h
      obtain rfl : sr' = sr := Option.some.inj (Except.ok.inj h)
      have hsound := shrink_spec _ failure budget none error he sr' hs
      refine ⟨hsound.recorded, hsound.reproduces.imp id ?_⟩
      rintro ⟨_, candidate, hc⟩
      exact refilled_recorded hc

/-! ### Artifacts reproduce -/

/-- Run on the file, the same test strictly replays the whole tape and fails with an
exception of the error's type. -/
def Artifact.Reproduces (L : LogText) (main : Program) (o : TestOptions) (settings : Settings)
    (fuel : Nat) (R : RandomSource) (file : Artifact) (error : PyException) : Prop :=
  ∃ draws r e f, drawsFromDict file.document = .ok draws ∧
    replayedFile main file draws o.scheduler o.kw fuel R = .ok r ∧ r.tape = draws ∧
    r.error = some e ∧ e.type = error.type ∧
    executeTest L main o {settings with tapePath := some file} fuel R = .ok (.failed f) ∧
    f.cause = some e

section Reproduces
variable {L : LogText} {main : Program} {o : TestOptions} {settings : Settings} {fuel : Nat}

/-- The file of a recorded run reproduces it, if it was recorded under the options that
the replay has. -/
theorem Program.Recorded.reproduces {r : RunResult} (h : main.Recorded o.kw fuel R r)
    {e : PyException} (he : r.error = some e) (hm : e.isMisalignment = false) (path : String)
    (seed : Option Int) : (tapeArtifact path r.tape seed r.scheduler).Reproduces L main o settings
      fuel R e := by
  obtain ⟨t, seed', spec, hdraws, hwilling, hr⟩ := h
  have hreplay := replay_recorded hdraws hwilling hr (by rw [he]; exact hm) 0 .rng
  have hdoc : drawsFromDict (tapeArtifact path r.tape seed r.scheduler).document = .ok r.tape :=
    drawsFromDict_serializeDraws r.tape seed
  have hfile : replayedFile main (tapeArtifact path r.tape seed r.scheduler) r.tape o.scheduler o.kw
      fuel R = .ok (r.report.result none r.tape r.scheduler) := hreplay
  refine ⟨r.tape, _, e, fileFailure (tapeArtifact path r.tape seed r.scheduler) e, hdoc, hfile, rfl,
    he, rfl, ?_, rfl⟩
  show replayTapeFile main _ o.scheduler o.kw fuel R = _
  unfold replayTapeFile
  rw [hdoc]
  show (calling (replayedFile main _ r.tape o.scheduler o.kw fuel R) >>= fun result => _) = _
  rw [hfile]
  show (match r.error with | none => _ | some e => _) = _
  rw [he]
  rfl

/-- The files of a failure are its own tape and the shrunk one. -/
theorem testFailure_reported {failure : RunResult} {error : PyException}
    {shrunk : Option ShrinkResult} {head : List String} {p : Artifact × PyException}
    (h : p ∈ (testFailure o settings failure error shrunk head).reported) :
    (∃ path, p = (tapeArtifact path failure.tape failure.seed failure.scheduler, error)) ∨
      ∃ sr path e, shrunk = some sr ∧ sr.result.error = some e ∧
        p = (tapeArtifact path sr.tape none sr.result.scheduler, e) := by
  have hzip : p ∈ (writeArtifacts o.name failure shrunk settings.artifactDir).zip
      (error :: (shrunk.bind fun sr => sr.result.error).toList) := h
  clear h
  unfold writeArtifacts at hzip
  cases hdir : settings.artifactDir with
  | none => rw [hdir] at hzip; cases hzip
  | some directory =>
    rw [hdir] at hzip
    rcases List.mem_cons.mp hzip with rfl | hzip
    · exact .inl ⟨_, rfl⟩
    · cases shrunk with
      | none => cases hzip
      | some sr =>
        cases he : sr.result.error with
        | none => simp [he] at hzip
        | some e =>
          simp only [he, Option.map_some, Option.bind_some, Option.toList_some] at hzip
          exact .inr ⟨sr, _, e, rfl, he, List.mem_singleton.mp hzip⟩

/-- All files of a recorded failure reproduce the errors given for them. -/
theorem Program.Recorded.artifacts {failure : RunResult} (h : main.Recorded o.kw fuel R failure)
    {error : PyException} (he : failure.error = some error) {shrunk : Option ShrinkResult}
    (hs : shrunkIf settings.shrinkEnabled main failure o.shrinkBudget o.kw fuel R = .ok shrunk)
    (head : List String) :
    ∀ p ∈ (testFailure o settings failure error shrunk head).reported,
      p.2.isMisalignment = false → p.1.Reproduces L main o settings fuel R p.2 := by
  intro p hp hm
  rcases testFailure_reported hp with ⟨path, rfl⟩ | ⟨sr, path, e, rfl, hsr, rfl⟩
  · exact h.reproduces he hm path failure.seed
  · obtain ⟨htape, hresult⟩ := shrunkIf_recorded hs he
    have hrecorded : main.Recorded o.kw fuel R sr.result := by
      rcases hresult with hf | hr
      · exact hf ▸ h
      · exact hr
    rw [← htape]
    exact hrecorded.reproduces hsr hm path none

end Reproduces

/-! ### The search without the entropy seed -/

section Entropy
variable {main : Program} {kw : RunKwargs} {fuel : Nat}

/-- A search that does not seed randomness never records the label of the seed, unless
the program requests it. -/
theorem refilled_labels (hmain : main.Requests fun label => label ≠ "entropy.seed")
    (hkw : kw.seedRandomness = false) {plan : List Draw} {r : RunResult}
    (h : refilled main .unspecified kw fuel R plan = .ok r) :
    r.scheduler = .random ∧ ∀ d ∈ r.tape, d.label ≠ "entropy.seed" := by
  obtain ⟨strategy, u, t', hu, rfl⟩ := execute_ok h
  obtain rfl : strategy = .random := (Except.ok.inj (universeOf_strategy hu)).symm
  obtain ⟨strategy, t₁, hresolve, hu⟩ := Taped.bind_ok hu
  obtain ⟨rfl, rfl⟩ := Prod.mk.inj (Except.ok.inj hresolve)
  have hrecords : ((setUp main .random kw >>= fun setting => simulate main kw fuel setting >>=
      fun u => pure (Strategy.random, u)) : Taped R (Strategy × Universe)).Records
        fun label => label ≠ "entropy.seed" := by
    refine (records_setUp (fun hne => absurd rfl hne) fun hs => ?_).bind fun setting =>
      (records_simulate hmain kw fuel setting).bind fun _ => Taped.records_pure _
    rw [hkw] at hs
    cases hs
  obtain ⟨ds, hds, hall⟩ := hrecords _ _ _ hu
  have hdraws : t'.draws = ds := hds
  exact ⟨rfl, fun d hd => hall d (hdraws ▸ hd)⟩

/-- A strict replay that seeds randomness begins by consuming an entropy draw. -/
theorem replay_seeded {recorded : List Draw} (hkw : kw.seedRandomness = true) {r : RunResult}
    (h : replay main recorded .strict 0 .rng false .random kw fuel R = .ok r) :
    ∃ d ∈ recorded, d.label = "entropy.seed" := by
  obtain ⟨strategy, u, t', hu, _⟩ := execute_ok h
  obtain ⟨strategy, t₁, hresolve, hu⟩ := Taped.bind_ok hu
  obtain ⟨rfl, rfl⟩ := Prod.mk.inj (Except.ok.inj hresolve)
  obtain ⟨setting, t₂, hsetup, _⟩ := Taped.bind_ok hu
  obtain ⟨used, rest, hused, hdrawn, _⟩ :=
    (reads_setUp main .random kw).sound (replay_strict recorded 0 .rng) hsetup
  obtain ⟨points, entropy, rfl, hpoints, hentropy⟩ := hdrawn.drawn
  obtain ⟨d, hd, hlabel⟩ : ∃ d ∈ entropy, d.label = "entropy.seed" := by
    rw [hkw] at hentropy
    generalize setting.entropy = seed at hentropy
    cases hentropy with
    | on hlabel _ => exact ⟨_, List.mem_cons_self, hlabel⟩
  refine ⟨d, ?_, hlabel⟩
  rw [hused]
  exact List.mem_append_left _ (List.mem_append_right _ hd)

end Entropy

/-! ### Tests that fail -/

section Tests
variable {L : LogText} {main : Program} {o : TestOptions} {settings : Settings} {fuel : Nat}
  {f : TestFailure}

/-- A sampled failure was recorded under the test's own options. -/
theorem executeSampling_artifacts
    (h : executeSampling L main o settings fuel R = .ok (.failed f)) :
    ∀ p ∈ f.reported, p.2.isMisalignment = false →
      p.1.Reproduces L main o settings fuel R p.2 := by
  obtain ⟨ex, hex, h⟩ := calling_bind_ok h
  split at h
  · dsimp only at h
    split at h
    · cases Except.ok.inj h
    · obtain rfl := TestEnd.failed.inj (Except.ok.inj h)
      exact fun p hp => absurd hp List.not_mem_nil
  · split at h
    · cases h
    next failure hfirst =>
      split at h
      · cases h
      next error herror =>
        obtain ⟨shrunk, hs, h⟩ := calling_bind_ok h
        obtain rfl := TestEnd.failed.inj (Except.ok.inj h)
        exact (explore_first hex (Nat.lt_irrefl 1 <| Int.ofNat_lt.mp ·) hfirst).artifacts herror hs _

/-- A searched failure was recorded without seeded randomness. -/
theorem executeSystematic_failed
    (h : executeSystematic main o settings fuel R = .ok (.failed f)) :
    ∃ failure error shrunk head plan,
      refilled main .unspecified {o.kw with seedRandomness := false} fuel R plan = .ok failure ∧
      failure.error = some error ∧
      shrunkIf settings.shrinkEnabled main failure o.shrinkBudget o.kw fuel R = .ok shrunk ∧
      f = testFailure o settings failure error shrunk head := by
  obtain ⟨result, hresult, h⟩ := calling_bind_ok h
  split at h
  · split at h
    · cases h
    next failure hfirst =>
      split at h
      · cases h
      next error herror =>
        obtain ⟨shrunk, hs, h⟩ := calling_bind_ok h
        obtain rfl := TestEnd.failed.inj (Except.ok.inj h)
        obtain ⟨plan, hplan⟩ := exploreSystematic_first hresult failure hfirst
        exact ⟨failure, error, shrunk, _, plan, hplan, herror, hs, rfl⟩
  · cases Except.ok.inj h

/-- A test fails with artifacts only through one of its two modes. -/
theorem executeTest_failed (h : executeTest L main o settings fuel R = .ok (.failed f))
    (hf : f.reported ≠ []) :
    (o.systematic = false ∧ executeSampling L main o settings fuel R = .ok (.failed f)) ∨
      (o.systematic = true ∧ executeSystematic main o settings fuel R = .ok (.failed f)) := by
  unfold executeTest at h
  split at h
  · -- a tape file
    unfold replayTapeFile at h
    split at h
    · cases h
    · obtain ⟨result, _, h⟩ := calling_bind_ok h
      split at h
      · cases Except.ok.inj h
      · obtain rfl := TestEnd.failed.inj (Except.ok.inj h)
        exact absurd rfl hf
  · cases hs : o.systematic with
    | true =>
      rw [hs] at h
      exact .inr ⟨rfl, h⟩
    | false =>
      rw [hs] at h
      exact .inl ⟨rfl, h⟩
  · -- a single seed
    obtain ⟨result, _, h⟩ := calling_bind_ok h
    split at h
    · cases Except.ok.inj h
    · obtain rfl := TestEnd.failed.inj (Except.ok.inj h)
      exact absurd rfl hf

/-- **When artifacts reproduce.** Unless the test is systematic and seeds randomness,
every file it wrote strictly replays whole and fails with the type that the test
reported for it. If it is and does, and its program leaves the label of the entropy
seed alone, the failing tape does not reproduce. -/
theorem artifacts_reproduce (h : executeTest L main o settings fuel R = .ok (.failed f)) :
    (¬ (o.systematic = true ∧ o.kw.seedRandomness = true) →
      ∀ p ∈ f.reported, p.2.isMisalignment = false →
        p.1.Reproduces L main o settings fuel R p.2) ∧
    (o.systematic = true ∧ o.kw.seedRandomness = true →
      main.Requests (fun label => label ≠ "entropy.seed") → f.reported ≠ [] →
        ∃ p ∈ f.reported, ¬ p.1.Reproduces L main o settings fuel R p.2) := by
  constructor
  · intro hmode p hp
    rcases executeTest_failed h (List.ne_nil_of_mem hp) with ⟨_, hsample⟩ | ⟨hs, hsearch⟩
    · exact executeSampling_artifacts hsample p hp
    · -- the search ran under the test's own options
      have hkw : {o.kw with seedRandomness := false} = o.kw := by
        cases hr : o.kw.seedRandomness with
        | true => exact absurd ⟨hs, hr⟩ hmode
        | false => rw [← hr]
      obtain ⟨failure, error, shrunk, head, plan, hplan, herror, hshrunk, rfl⟩ :=
        executeSystematic_failed hsearch
      rw [hkw] at hplan
      exact (refilled_recorded hplan).artifacts herror hshrunk head p hp
  · intro hmode hmain hf
    rcases executeTest_failed h hf with ⟨hs, _⟩ | ⟨_, hsearch⟩
    · rw [hmode.1] at hs
      cases hs
    · obtain ⟨failure, error, shrunk, head, plan, hplan, herror, hshrunk, rfl⟩ :=
        executeSystematic_failed hsearch
      obtain ⟨hrandom, hlabels⟩ := refilled_labels hmain rfl hplan
      obtain ⟨path, hmem⟩ : ∃ path, (tapeArtifact path failure.tape failure.seed failure.scheduler,
          error) ∈ (testFailure o settings failure error shrunk head).reported := by
        have hzip : (testFailure o settings failure error shrunk head).reported =
            (writeArtifacts o.name failure shrunk settings.artifactDir).zip
              (error :: (shrunk.bind fun sr => sr.result.error).toList) := rfl
        rw [hzip] at hf ⊢
        unfold writeArtifacts at hf ⊢
        cases hdir : settings.artifactDir with
        | none => rw [hdir] at hf; exact absurd rfl hf
        | some directory => exact ⟨_, List.mem_cons_self⟩
      refine ⟨_, hmem, ?_⟩
      rintro ⟨draws, r, e, f', hdraws, hreplay, _⟩
      rw [show drawsFromDict (tapeArtifact path failure.tape failure.seed failure.scheduler).document
        = .ok failure.tape from drawsFromDict_serializeDraws _ _] at hdraws
      obtain rfl := Except.ok.inj hdraws
      have hreplay' : replay main failure.tape .strict 0 .rng false .random o.kw fuel R = .ok r := by
        rw [← hreplay, replayedFile]
        show _ = replay main failure.tape .strict 0 .rng false failure.scheduler.spec o.kw fuel R
        rw [hrandom]
        rfl
      obtain ⟨d, hd, hlabel⟩ := replay_seeded hmode.2 hreplay'
      exact hlabels d hd hlabel

end Tests

/-- A test of the straggler with the decorator's defaults, but for its start seed. -/
def stragglerTest (systematic : Bool) : TestOptions :=
  ⟨"test_straggler", 100, .random, 63, 1500, [], false, systematic, 2,
    {RunKwargs.default with seedRandomness := true}⟩

def writingSettings : Settings := ⟨none, none, none, some "artifacts", false, false⟩

/-- A failure with one file, computed and checked. -/
theorem reported_of_computed {x : Except TestHalt TestEnd} {e : PyException} {P : Artifact → Prop}
    [DecidablePred P] (h : (match x with
      | .ok (.failed ⟨_, _, [(file, e')]⟩) => decide (e' = e ∧ P file)
      | _ => false) = true) :
    ∃ f file, x = .ok (.failed f) ∧ f.reported = [(file, e)] ∧ P file := by
  split at h
  next file _ =>
    obtain ⟨rfl, hfile⟩ := of_decide_eq_true h
    exact ⟨_, file, rfl, rfl, hfile⟩
  next => cases h

/-- What a test raises, if it is neither a result nor a failure of its own. -/
def raisedOf : Except TestHalt TestEnd → Option PyException
  | .error (.halted (.raised e)) => some e
  | _ => none

theorem raised_of_any {x : Except TestHalt TestEnd} {p : PyException → Bool}
    (h : (raisedOf x).any p = true) : ∃ e, x = .error (.halted (.raised e)) ∧ p e = true := by
  unfold raisedOf at h
  split at h
  next e => exact ⟨e, rfl, h⟩
  next => cases h

/-- The tape of a sampled straggler reproduces its failure. -/
theorem artifacts_reproduce_straggler :
    ∃ f file, executeTest shortText straggler (stragglerTest false) writingSettings 8
        transcriptSource = .ok (.failed f) ∧ f.reported = [(file, ⟨valueError, "late"⟩)] ∧
      file.Reproduces shortText straggler (stragglerTest false) writingSettings 8 transcriptSource
        ⟨valueError, "late"⟩ := by
  obtain ⟨f, file, hf, hreported, -⟩ : ∃ f file, executeTest shortText straggler
      (stragglerTest false) writingSettings 8 transcriptSource = .ok (.failed f) ∧
      f.reported = [(file, ⟨valueError, "late"⟩)] ∧ True := reported_of_computed (by decide +kernel)
  exact ⟨f, file, hf, hreported, (artifacts_reproduce hf).1 (by decide) (file, ⟨valueError, "late"⟩)
    (by rw [hreported]; exact List.mem_singleton_self _)
    (show PyException.isMisalignment ⟨valueError, "late"⟩ = false by decide)⟩

/-- The tape of a searched one is refused: it lacks the entropy seed. -/
theorem systematic_artifact_misaligns :
    ∃ f file e,
      executeTest shortText straggler (stragglerTest true) writingSettings 8 zeroSource =
        .ok (.failed f) ∧ f.reported = [(file, ⟨valueError, "late"⟩)] ∧
      executeTest shortText straggler (stragglerTest true)
        {writingSettings with tapePath := some file} 8 zeroSource = .error (.halted (.raised e)) ∧
      e.type = tapeMisalignmentError := by
  obtain ⟨f, file, hf, hreported, hraised⟩ : ∃ f file, executeTest shortText straggler
      (stragglerTest true) writingSettings 8 zeroSource = .ok (.failed f) ∧
      f.reported = [(file, ⟨valueError, "late"⟩)] ∧
      (raisedOf (executeTest shortText straggler (stragglerTest true)
        {writingSettings with tapePath := some file} 8 zeroSource)).any
          (fun e => e.type = tapeMisalignmentError) = true :=
    reported_of_computed (by decide +kernel)
  obtain ⟨e, he, htype⟩ := raised_of_any hraised
  exact ⟨f, file, e, hf, hreported, he, of_decide_eq_true htype⟩

end Simloom
