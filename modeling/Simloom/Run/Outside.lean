import Simloom.Run.Execute
import Mathlib.Logic.Function.Basic

/-! What a run does to the world outside.

`_execute` sets a run up in stages: it constructs the loop, which may draw for its scheduler;
arms the watchdog; makes the loop the current one; and patches `time`, `random` and `os`,
for which it may draw again. Only from then on a `finally` takes all of this back. The
program may do to its surroundings what it likes. -/
namespace Simloom
variable {R : RandomSource} {γ : Type}

/-! ### The world outside -/

/-- What a run may patch: functions of `time`, `os.urandom` and `random._urandom`. -/
inductive Attribute where
  | time
  | timeNs
  | monotonic
  | monotonicNs
  | perfCounter
  | perfCounterNs
  | urandom
  | randomUrandom
deriving DecidableEq, Repr

/-- What an attribute is bound to: something of its own, the loop's virtual clock, or the
seeded byte source. -/
inductive Implementation where
  | own (id : Nat)
  | virtualTime (clock : Attribute) (wallEpoch : Rat)
  | seededEntropy (seed : Nat)
deriving DecidableEq

inductive EventLoop where
  | sim
  | other (id : Nat)
deriving DecidableEq

/-- `random` is the state of the global generator, `current` the current event loop. -/
structure Surroundings (γ : Type) where
  attributes : Attribute → Implementation
  random : γ
  current : Option EventLoop

inductive LoopLife where
  | unmade
  | live
  | closed
deriving DecidableEq

/-- With the run's watchdog and its loop. -/
structure Outside (γ : Type) extends Surroundings γ where
  watchdog : Option Rat
  loop : LoopLife

/-- The interpreter: `random.seed`, and whether `random` has the attribute `_urandom`. -/
structure Interpreter (γ : Type) where
  seeded : Nat → γ
  hasUrandom : Bool

namespace Outside

/-! ### `patched_environment` -/

/-- What was patched, with what was there before, in order. -/
abbrev Restores := List (Attribute × Implementation)

def patch (a : Attribute) (f : Implementation) (p : Outside γ × Restores) : Outside γ × Restores :=
  ({p.1 with attributes := Function.update p.1.attributes a f}, p.2 ++ [(a, p.1.attributes a)])

/-- Put the originals back, the last first. -/
def putBack (restores : Restores) (attributes : Attribute → Implementation) :
    Attribute → Implementation :=
  restores.foldr (fun r attributes => Function.update attributes r.1 r.2) attributes

def timeAttributes : List Attribute :=
  [.time, .timeNs, .monotonic, .monotonicNs, .perfCounter, .perfCounterNs]

def patchTime (wallEpoch : Rat) (p : Outside γ × Restores) : Outside γ × Restores :=
  timeAttributes.foldl (fun p a => patch a (.virtualTime a wallEpoch) p) p

def entropyAttributes (python : Interpreter γ) : List Attribute :=
  .urandom :: if python.hasUrandom then [.randomUrandom] else []

def patchEntropy (python : Interpreter γ) (seed : Nat) (p : Outside γ × Restores) :
    Outside γ × Restores :=
  (entropyAttributes python).foldl (fun p a => patch a (.seededEntropy seed) p) p

/-- What the context manager keeps until it is left. -/
structure Environment (γ : Type) where
  restores : Restores
  savedRandomState : Option γ

/-- Up to the `yield`. A refused draw undoes the patches made so far. -/
def enter (python : Interpreter γ) (kw : RunKwargs) (o : Outside γ) (t : Tape R) :
    Outside γ × Except Halt (Environment γ × Option Nat × Tape R) :=
  let p := if kw.options.virtualTime then patchTime kw.options.wallEpoch (o, []) else (o, [])
  match entropySeed kw.seedRandomness t with
  | .error h => ({p.1 with attributes := putBack p.2 p.1.attributes}, .error h)
  | .ok (none, t) => (p.1, .ok (⟨p.2, none⟩, none, t))
  | .ok (some seed, t) =>
    let q := patchEntropy python seed ({p.1 with random := python.seeded seed}, p.2)
    (q.1, .ok (⟨q.2, some p.1.random⟩, some seed, t))

/-- From the `yield` on. -/
def Environment.leave (env : Environment γ) (o : Outside γ) : Outside γ :=
  {o with
    attributes := putBack env.restores o.attributes
    random := env.savedRandomState.getD o.random}

/-! ### `_execute`, seen from outside -/

/-- `faulthandler.dump_traceback_later`. -/
def arm (watchdog : Option Rat) (o : Outside γ) : Except PyException (Outside γ) :=
  match watchdog with
  | none => .ok o
  | some seconds =>
    if 0 < seconds then .ok {o with watchdog := some seconds}
    else .error ⟨valueError, "timeout must be greater than 0"⟩

/-- The `finally` of the run. -/
def finish (kw : RunKwargs) (env : Environment γ) (o : Outside γ) : Outside γ :=
  {env.leave o with
    watchdog := if kw.watchdog.isSome then none else o.watchdog
    current := none
    loop := .closed}

/-- The result of a universe, or its error. -/
def conclude (seed : Option Int) (raiseOnError : Bool) (strategy : Strategy) (kw : RunKwargs)
    (u : Universe) (t : Tape R) : Except Halt RunResult :=
  let error := u.error.or (leftoverError t)
  match error, raiseOnError with
  | some e, true => .error (.raised e)
  | _, _ => .ok ((u.report kw.options.epoch error).result seed t.draws strategy)

end Outside

/-- A call of `_execute`: the interpreter, the program and what it does to its surroundings,
and the arguments. -/
structure Execution (R : RandomSource) (γ : Type) where
  python : Interpreter γ
  main : Program
  touch : Surroundings γ → Surroundings γ
  tape : Tape R
  seed : Option Int
  spec : SchedulerSpec
  kw : RunKwargs

namespace Execution
open Outside
variable (c : Execution R γ) (raiseOnError : Bool) (fuel : Nat)

/-- What the program leaves of its surroundings. -/
def touched (o : Outside γ) : Outside γ := {o with toSurroundings := c.touch o.toSurroundings}

/-- Inside of the `try`. -/
def guarded (strategy : Strategy) (setting : Setting) (env : Environment γ) (o : Outside γ)
    (t : Tape R) : Outside γ × Except Halt RunResult :=
  match simulate c.main c.kw fuel setting t with
  | .error .hung => (c.touched o, .error .hung)
  | .error (.raised e) => (finish c.kw env (c.touched o), .error (.raised e))
  | .ok (u, t) => (finish c.kw env (c.touched o), conclude c.seed raiseOnError strategy c.kw u t)

/-- With the loop constructed. -/
def launch (strategy : Strategy) (state : SchedulerState) (o : Outside γ) (t : Tape R) :
    Outside γ × Except Halt RunResult :=
  match checkWorld c.main c.kw.options.world t with
  | .error h => (o, .error h)
  | .ok (_, t) =>
    match arm c.kw.watchdog o with
    | .error e => (o, .error (.raised e))
    | .ok o =>
      match enter c.python c.kw {o with current := some .sim} t with
      | (o, .error h) => (o, .error h)
      | (o, .ok (env, entropy, t)) =>
        c.guarded raiseOnError fuel strategy ⟨state, entropy, c.kw.options⟩ env o t

/-- `_execute`: the world afterwards, and how the call ended. -/
def execute (before : Surroundings γ) : Outside γ × Except Halt RunResult :=
  let o : Outside γ := ⟨before, none, .unmade⟩
  match resolve c.spec c.tape with
  | .error h => (o, .error h)
  | .ok (strategy, t) =>
    match scheduler strategy t with
    | .error h => (o, .error h)
    | .ok (state, t) => c.launch raiseOnError fuel strategy state {o with loop := .live} t

end Execution

/-! ### What is to be restored -/

/-- The attributes that a run with these settings patches. -/
def Outside.patched (python : Interpreter γ) (kw : RunKwargs) : List Attribute :=
  (if kw.options.virtualTime then Outside.timeAttributes else []) ++
    if kw.seedRandomness then Outside.entropyAttributes python else []

namespace Execution
variable (c : Execution R γ)

/-- The program itself leaves an attribute, or the random state, as it finds it. -/
def LeavesAttribute (a : Attribute) : Prop := ∀ o, (c.touch o).attributes a = o.attributes a

def LeavesRandom : Prop := ∀ o, (c.touch o).random = o.random

structure Restored (before : Surroundings γ) (after : Outside γ) : Prop where
  watchdog : after.watchdog = none
  current : after.current = none
  loop : after.loop ≠ .live
  attributes : ∀ a, a ∈ Outside.patched c.python c.kw ∨ c.LeavesAttribute a →
    after.attributes a = before.attributes a
  random : c.kw.seedRandomness = true ∨ c.LeavesRandom → after.random = before.random

/-- What raises as a divergence is returned as an error. -/
def ReturnsDivergence (fuel : Nat) (before : Surroundings γ) : Prop :=
  ∀ e : PyException, e.isMisalignment = true →
    (c.execute true fuel before).2 = .error (.raised e) →
      ∃ r, (c.execute false fuel before).2 = .ok r ∧ r.outcome = .error ∧ r.error = some e

/-- However the call ends, it has restored the world outside. -/
def Restores (raiseOnError : Bool) (before : Surroundings γ) : Prop :=
  ∀ fuel, (c.execute raiseOnError fuel before).2 ≠ .error .hung →
    c.Restored before (c.execute raiseOnError fuel before).1 ∧
      (raiseOnError = false → c.ReturnsDivergence fuel before)

/-- The arguments are ones that `_execute` accepts; and no interrupt is a
`TapeMisalignmentError`. -/
structure Accepted (strategy : Strategy) : Prop where
  spec : resolveScheduler c.spec = .ok strategy
  horizon : ∀ depth horizon, strategy = .pct depth horizon → depth ≤ 1 ∨ 1 ≤ horizon
  world : ∃ wants, c.main.wantsWorld = .ok wants ∧ (wants = true → c.kw.options.world = true)
  watchdog : ∀ seconds ∈ c.kw.watchdog, 0 < seconds
  interrupts : ∀ setting replies body, c.main.body setting replies = .finish body →
    (∀ e, body.exit = .interrupted e → e.isMisalignment = false) ∧
    ∀ replies' teardown, body.teardown replies' = .finish teardown →
      ∀ e, teardown.exit = .interrupted e → e.isMisalignment = false

end Execution

/-! ### The draws of the set-up -/

/-- The tape answers these draws, one after the other. -/
def Tape.Serves (t : Tape R) : List (String × Nat) → Prop
  | [] => True
  | (label, bound) :: rest =>
    match t.draw label bound with
    | .ok (_, t) => t.Serves rest
    | .error _ => False

theorem Tape.serves_cons {t : Tape R} {label : String} {bound : Nat} {rest : List (String × Nat)} :
    t.Serves ((label, bound) :: rest) ↔ ∃ v t', t.draw label bound = .ok (v, t') ∧ t'.Serves rest := by
  rw [Tape.Serves]
  cases t.draw label bound with
  | error e => exact ⟨False.elim, fun ⟨_, _, h, _⟩ => nomatch h⟩
  | ok a =>
    refine ⟨fun h => ⟨a.1, a.2, rfl, h⟩, ?_⟩
    rintro ⟨v, t', h, hs⟩
    cases h
    exact hs

instance Tape.decidableServes : (t : Tape R) → (ds : List (String × Nat)) → Decidable (t.Serves ds)
  | _, [] => isTrue trivial
  | t, (label, bound) :: rest =>
    match hdraw : t.draw label bound with
    | .error _ => isFalse fun h => by
      obtain ⟨_, _, hok, _⟩ := Tape.serves_cons.mp h
      cases hdraw.symm.trans hok
    | .ok (v, t') =>
      have := decidableServes t' rest
      decidable_of_iff (t'.Serves rest) ⟨fun h => Tape.serves_cons.mpr ⟨v, t', hdraw, h⟩, fun h => by
        obtain ⟨_, _, hok, hs⟩ := Tape.serves_cons.mp h
        cases hdraw.symm.trans hok
        exact hs⟩

/-- The draws that construct the scheduler. -/
def Strategy.draws : Strategy → List (String × Nat)
  | .random => []
  | .pct depth horizon => List.replicate (depth - 1).toNat ("pct.change", horizon.toNat)

/-- The draw that seeds the environment. -/
def RunKwargs.draws (kw : RunKwargs) : List (String × Nat) :=
  if kw.seedRandomness then [("entropy.seed", 2 ^ 31 - 1)] else []

namespace Execution
variable {c : Execution R γ}

/-- A valid request is refused by a divergence. -/
theorem refused_isMisalignment {t : Tape R} {label : String} {bound : Nat} {e : TapeError}
    (h : t.draw label bound = .error e) (hpos : 1 ≤ bound) : e.exception.isMisalignment = true := by
  rcases Tape.draw_error h with ⟨h0, _⟩ | he
  · omega
  · unfold TapeError.exception
    rw [if_pos he]
    exact (show tapeMisalignmentError.isSubclass tapeMisalignmentError = true by decide)

/-- More draws are served where what is left of the tape serves them. -/
theorem changePoints_serves {horizon : Nat} (hpos : 1 ≤ horizon) (n : Nat) (t : Tape R) :
    (∃ points t', changePoints horizon n t = .ok (points, t') ∧
      ∀ ds, t.Serves (List.replicate n ("pct.change", horizon) ++ ds) ↔ t'.Serves ds) ∨
    ((∃ e : PyException, e.isMisalignment = true ∧ changePoints horizon n t = .error (.raised e)) ∧
      ∀ ds, ¬t.Serves (List.replicate n ("pct.change", horizon) ++ ds)) := by
  induction n generalizing t with
  | zero => exact .inl ⟨[], t, rfl, fun _ => Iff.rfl⟩
  | succ n ih =>
    have hserves (ds : List (String × Nat)) :
        t.Serves (List.replicate (n + 1) ("pct.change", horizon) ++ ds) ↔
          match t.draw "pct.change" horizon with
          | .ok (_, t) => t.Serves (List.replicate n ("pct.change", horizon) ++ ds)
          | .error _ => False := Iff.rfl
    have hpoints : changePoints horizon (n + 1) t =
        match t.draw "pct.change" horizon with
        | .ok (v, t) => (changePoints horizon n t).map fun p => (v.val :: p.1, p.2)
        | .error e => .error (.raised e.exception) := by
      show (Taped.draw "pct.change" horizon t >>= fun p =>
        changePoints horizon n p.2 >>= fun q => Except.ok (p.1 :: q.1, q.2)) = _
      unfold Taped.draw
      cases t.draw "pct.change" horizon with
      | error e => rfl
      | ok a => cases changePoints horizon n a.2 <;> rfl
    simp only [hserves, hpoints]
    cases hdraw : t.draw "pct.change" horizon with
    | error e =>
      refine .inr ⟨⟨e.exception, refused_isMisalignment hdraw hpos, rfl⟩, fun _ => id⟩
    | ok a =>
      obtain ⟨v, t'⟩ := a
      rcases ih t' with ⟨points, t'', hok, hs⟩ | ⟨⟨e, he, herr⟩, hs⟩
      · exact .inl ⟨v.val :: points, t'', by simp [hok, Except.map], hs⟩
      · exact .inr ⟨⟨e, he, by simp [herr, Except.map]⟩, hs⟩

/-- The scheduler is constructed, or refused a draw. -/
theorem scheduler_serves {strategy : Strategy}
    (hhorizon : ∀ depth horizon, strategy = .pct depth horizon → depth ≤ 1 ∨ 1 ≤ horizon) (t : Tape R) :
    (∃ state t', scheduler strategy t = .ok (state, t') ∧
      ∀ ds, t.Serves (strategy.draws ++ ds) ↔ t'.Serves ds) ∨
    ((∃ e : PyException, e.isMisalignment = true ∧ scheduler strategy t = .error (.raised e)) ∧
      ∀ ds, ¬t.Serves (strategy.draws ++ ds)) := by
  cases strategy with
  | random => exact .inl ⟨.randomWalk, t, rfl, fun _ => Iff.rfl⟩
  | pct depth horizon =>
    have hscheduler : scheduler (.pct depth horizon) t =
        (changePoints horizon (depth - 1).toNat t).map fun p => (.pct p.1, p.2) := by
      show (changePoints horizon (depth - 1).toNat t >>= fun p => Except.ok (SchedulerState.pct p.1, p.2)) = _
      cases changePoints horizon (depth - 1).toNat t <;> rfl
    rw [hscheduler]
    have hdraws : (Strategy.pct depth horizon).draws =
        List.replicate (depth - 1).toNat ("pct.change", horizon.toNat) := rfl
    rw [hdraws]
    clear hdraws
    rcases hhorizon depth horizon rfl with hdepth | hpos
    · have h0 : (depth - 1).toNat = 0 := by omega
      rw [h0]
      exact .inl ⟨.pct [], t, rfl, fun _ => Iff.rfl⟩
    · obtain ⟨k, rfl⟩ := Int.eq_ofNat_of_zero_le (a := horizon) (by omega)
      have hk : 1 ≤ k := by omega
      rw [Int.toNat_natCast]
      rcases changePoints_serves hk (depth - 1).toNat t with ⟨points, t', hok, hs⟩ | ⟨⟨e, he, herr⟩, hs⟩
      · exact .inl ⟨.pct points, t', by rw [hok]; rfl, hs⟩
      · exact .inr ⟨⟨e, he, by rw [herr]; rfl⟩, hs⟩

theorem entropySeed_serves (kw : RunKwargs) (t : Tape R) :
    (∃ entropy t', entropySeed kw.seedRandomness t = .ok (entropy, t') ∧ t.Serves kw.draws ∧
      (entropy.isSome = kw.seedRandomness)) ∨
    (∃ e, entropySeed kw.seedRandomness t = .error (.raised e)) ∧ ¬t.Serves kw.draws := by
  unfold RunKwargs.draws
  cases kw.seedRandomness with
  | false => exact .inl ⟨none, t, rfl, trivial, rfl⟩
  | true =>
    have hseed : entropySeed true t = match t.draw "entropy.seed" (2 ^ 31 - 1) with
        | .ok (v, t) => .ok (some v.val, t)
        | .error e => .error (.raised e.exception) := by
      show (Taped.draw "entropy.seed" (2 ^ 31 - 1) t >>= fun p => Except.ok (some p.1, p.2)) = _
      unfold Taped.draw
      cases t.draw "entropy.seed" (2 ^ 31 - 1) <;> rfl
    rw [hseed, if_pos rfl, Tape.serves_cons]
    cases hdraw : t.draw "entropy.seed" (2 ^ 31 - 1) with
    | error e => exact .inr ⟨⟨_, rfl⟩, fun ⟨_, _, hok, _⟩ => nomatch hok⟩
    | ok a => exact .inl ⟨_, _, rfl, ⟨_, _, rfl, trivial⟩, rfl⟩

end Execution

end Simloom
