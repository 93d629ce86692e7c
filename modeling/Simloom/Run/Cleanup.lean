import Simloom.Run.Outside

/-! What a run puts back.

The `finally` puts back every patch, whatever the program bound the attribute to. It does not
cover the draws of the set-up: which of these the tape serves decides whether the call restores
the world outside (`restores_iff`). -/
namespace Simloom
variable {R : RandomSource} {γ : Type}

/-! ### Patches are put back -/

namespace Outside

theorem putBack_append (restores later : Restores) (f : Attribute → Implementation) :
    putBack (restores ++ later) f = putBack restores (putBack later f) := List.foldr_append

/-- What was patched gets its original, whatever it is bound to. -/
theorem putBack_of_mem {restores : Restores} {a : Attribute} (h : a ∈ restores.map Prod.fst)
    (f g : Attribute → Implementation) : putBack restores f a = putBack restores g a := by
  induction restores with
  | nil => cases h
  | cons r rest ih =>
    show Function.update (putBack rest f) r.1 r.2 a = Function.update (putBack rest g) r.1 r.2 a
    by_cases ha : a = r.1
    · rw [ha, Function.update_self, Function.update_self]
    · rw [Function.update_of_ne ha, Function.update_of_ne ha]
      exact ih ((List.mem_cons.mp h).resolve_left ha)

theorem putBack_of_not_mem {restores : Restores} {a : Attribute} (h : a ∉ restores.map Prod.fst)
    (f : Attribute → Implementation) : putBack restores f a = f a := by
  induction restores with
  | nil => rfl
  | cons r rest ih =>
    show Function.update (putBack rest f) r.1 r.2 a = f a
    rw [List.map_cons, List.mem_cons, not_or] at h
    rw [Function.update_of_ne h.1, ih h.2]

/-- Patches lead from one world to another: put back, the attributes are as they were. -/
structure Patched (o : Outside γ) (attributes : List Attribute) (p : Outside γ × Restores) : Prop where
  back : putBack p.2 p.1.attributes = o.attributes
  keys : p.2.map Prod.fst = attributes
  watchdog : p.1.watchdog = o.watchdog
  current : p.1.current = o.current
  loop : p.1.loop = o.loop

variable {o : Outside γ} {done : List Attribute} {p : Outside γ × Restores}

theorem Patched.patch (h : Patched o done p) (a : Attribute) (f : Implementation) :
    Patched o (done ++ [a]) (Outside.patch a f p) where
  back := by
    show putBack (p.2 ++ [(a, p.1.attributes a)]) (Function.update p.1.attributes a f) = _
    rw [putBack_append]
    show putBack p.2 (Function.update (Function.update p.1.attributes a f) a (p.1.attributes a)) = _
    rw [Function.update_idem, Function.update_eq_self]
    exact h.back
  keys := by
    show (p.2 ++ [(a, p.1.attributes a)]).map Prod.fst = _
    rw [List.map_append, h.keys]
    rfl
  watchdog := h.watchdog
  current := h.current
  loop := h.loop

theorem Patched.patches (h : Patched o done p) (f : Attribute → Implementation)
    (attributes : List Attribute) :
    Patched o (done ++ attributes) (attributes.foldl (fun p a => Outside.patch a (f a) p) p) ∧
      (attributes.foldl (fun p a => Outside.patch a (f a) p) p).1.random = p.1.random := by
  induction attributes generalizing done p with
  | nil => exact ⟨by rwa [List.append_nil], rfl⟩
  | cons a rest ih =>
    obtain ⟨hrest, hrandom⟩ := ih (h.patch a (f a))
    exact ⟨by rwa [List.append_assoc] at hrest, hrandom⟩

theorem patched_time (kw : RunKwargs) (o : Outside γ) :
    let p := if kw.options.virtualTime then patchTime kw.options.wallEpoch (o, []) else (o, [])
    Patched o (if kw.options.virtualTime then timeAttributes else []) p ∧ p.1.random = o.random := by
  have hnone : Patched o [] (o, []) := ⟨rfl, rfl, rfl, rfl, rfl⟩
  cases kw.options.virtualTime with
  | false => exact ⟨hnone, rfl⟩
  | true => exact hnone.patches (fun a => .virtualTime a kw.options.wallEpoch) timeAttributes

/-- What the environment is once it has been entered. -/
structure Entered (python : Interpreter γ) (kw : RunKwargs) (o o' : Outside γ) (env : Environment γ) :
    Prop where
  patched : Patched o (patched python kw) (o', env.restores)
  saved : env.savedRandomState = if kw.seedRandomness then some o.random else none
  random : kw.seedRandomness = false → o'.random = o.random

theorem enter_serves (python : Interpreter γ) (kw : RunKwargs) (o : Outside γ) (t : Tape R) :
    (∃ o' env entropy t', enter python kw o t = (o', .ok (env, entropy, t')) ∧ t.Serves kw.draws ∧
      Entered python kw o o' env) ∨
    (∃ o' e, enter python kw o t = (o', .error (.raised e)) ∧ o'.current = o.current) ∧
      ¬t.Serves kw.draws := by
  obtain ⟨htime, hrandom⟩ := patched_time kw o
  rcases Execution.entropySeed_serves kw t with ⟨entropy, t', hok, hs, hsome⟩ | ⟨⟨e, herr⟩, hs⟩
  · refine .inl ?_
    unfold enter
    rw [hok]
    cases entropy with
    | none =>
      rw [Option.isSome_none] at hsome
      refine ⟨_, _, _, _, rfl, hs, ?_, ?_, fun _ => hrandom⟩
      · unfold patched
        rw [← hsome]
        simpa using htime
      · rw [← hsome]
        rfl
    | some seed =>
      rw [Option.isSome_some] at hsome
      let p : Outside γ × Restores :=
        if kw.options.virtualTime then patchTime kw.options.wallEpoch (o, []) else (o, [])
      have hseeded : Patched o (if kw.options.virtualTime then timeAttributes else [])
          ({p.1 with random := python.seeded seed}, p.2) :=
        ⟨htime.back, htime.keys, htime.watchdog, htime.current, htime.loop⟩
      obtain ⟨hpatched, _⟩ :=
        hseeded.patches (fun _ => .seededEntropy seed) (entropyAttributes python)
      refine ⟨_, _, _, _, rfl, hs, ?_, ?_, fun hoff => ?_⟩
      · unfold patched
        rw [← hsome]
        exact hpatched
      · rw [← hsome]
        exact congrArg some hrandom
      · rw [← hsome] at hoff
        cases hoff
  · let p : Outside γ × Restores :=
      if kw.options.virtualTime then patchTime kw.options.wallEpoch (o, []) else (o, [])
    refine .inr ⟨⟨{p.1 with attributes := putBack p.2 p.1.attributes}, e, ?_, htime.current⟩, hs⟩
    unfold enter
    rw [herr]

end Outside

/-! ### Every exit -/

namespace Execution
open Outside
variable {c : Execution R γ} {raiseOnError : Bool} {fuel : Nat} {before : Surroundings γ} {strategy : Strategy}

/-- The world when the environment is entered. -/
def launched (c : Execution R γ) (before : Surroundings γ) : Outside γ :=
  ⟨{before with current := some .sim}, c.kw.watchdog, .live⟩

theorem Accepted.checkWorld_ok (h : c.Accepted strategy) (t : Tape R) :
    checkWorld c.main c.kw.options.world t = .ok ((), t) := by
  obtain ⟨wants, hwants, hworld⟩ := h.world
  unfold checkWorld
  rw [hwants]
  cases wants with
  | false => rfl
  | true =>
    rw [hworld rfl]
    rfl

theorem execute_eq (h : c.Accepted strategy) : c.execute raiseOnError fuel before =
    match scheduler strategy c.tape with
    | .error e => (⟨before, none, .unmade⟩, .error e)
    | .ok (state, t) =>
      match enter c.python c.kw (c.launched before) t with
      | (o, .error e) => (o, .error e)
      | (o, .ok (env, entropy, t)) =>
        c.guarded raiseOnError fuel strategy ⟨state, entropy, c.kw.options⟩ env o t := by
  have harm : arm c.kw.watchdog (⟨before, none, .live⟩ : Outside γ) =
      .ok ⟨before, c.kw.watchdog, .live⟩ := by
    unfold arm
    cases hwatchdog : c.kw.watchdog with
    | none => rfl
    | some seconds => exact if_pos (h.watchdog seconds hwatchdog)
  unfold execute resolve
  rw [h.spec]
  dsimp only
  show (match scheduler strategy c.tape with
    | .error e => _
    | .ok (state, t) => c.launch raiseOnError fuel strategy state ⟨before, none, .live⟩ t) = _
  cases scheduler strategy c.tape with
  | error e => rfl
  | ok a =>
    obtain ⟨state, t⟩ := a
    dsimp only
    unfold launch
    rw [h.checkWorld_ok, harm]
    rfl

theorem bind_error {α β : Type} {x : Taped R α} {f : α → Taped R β} {t : Tape R} {e : Halt}
    (h : (x >>= f) t = .error e) : x t = .error e ∨ ∃ a t', x t = .ok (a, t') ∧ f a t' = .error e := by
  change (x t >>= fun p => f p.1 p.2) = .error e at h
  cases hx : x t with
  | error e' =>
    rw [hx] at h
    exact .inl (congrArg Except.error (Except.error.inj h))
  | ok a =>
    rw [hx] at h
    exact .inr ⟨a.1, a.2, rfl, h⟩

theorem process_ne_raised {α : Type} {p : Process α} {t : Tape R} (e : PyException) :
    Taped.process p fuel t ≠ .error (.raised e) := by
  unfold Taped.process
  cases p.run fuel [] t <;> exact nofun

theorem process_finish {α : Type} {p : Process α} {t t' : Tape R} {a : α}
    (h : Taped.process p fuel t = .ok (a, t')) : ∃ replies, p replies = .finish a :=
  (Process.run_records (Process.requests_any p) (Taped.process_ok h)).2

theorem check_error {x : Exit} {t : Tape R} {e : PyException}
    (h : (x.check : Taped R (Option PyException)) t = .error (.raised e)) : x = .interrupted e := by
  cases x with
  | returned => cases h
  | raised e' => cases h
  | interrupted e' =>
    cases h
    rfl

/-- An interrupt gets out, and is no divergence. -/
theorem simulate_raised (h : c.Accepted strategy) {setting : Setting} {t : Tape R} {e : PyException}
    (hraised : simulate c.main c.kw fuel setting t = .error (.raised e)) : e.isMisalignment = false := by
  unfold simulate at hraised
  rcases bind_error hraised with hbody | ⟨body, t₁, hbody, hraised⟩
  · exact absurd hbody (process_ne_raised _)
  obtain ⟨replies, hfinish⟩ := process_finish hbody
  obtain ⟨hexit, hteardown⟩ := h.interrupts setting replies body hfinish
  rcases bind_error hraised with hcheck | ⟨error, t₂, _, hraised⟩
  · exact hexit e (check_error hcheck)
  rcases bind_error hraised with hprepare | ⟨_, t₃, _, hraised⟩
  · cases hprepare
  rcases bind_error hraised with hprocess | ⟨teardown, t₄, hprocess, hraised⟩
  · exact absurd hprocess (process_ne_raised _)
  obtain ⟨replies', hfinish'⟩ := process_finish hprocess
  rcases bind_error hraised with hcheck | ⟨_, _, _, hraised⟩
  · exact hteardown replies' teardown hfinish' e (check_error hcheck)
  · cases hraised

/-- The `finally` of the run restores the world outside. -/
theorem finish_restored {o : Outside γ} {env : Environment γ}
    (h : Entered c.python c.kw (c.launched before) o env) :
    c.Restored before (finish c.kw env (c.touched o)) where
  watchdog := by
    show (if c.kw.watchdog.isSome then none else o.watchdog) = none
    rw [h.patched.watchdog]
    show (if c.kw.watchdog.isSome then none else c.kw.watchdog) = none
    cases c.kw.watchdog <;> rfl
  current := rfl
  loop := by simp [finish]
  attributes := by
    intro a ha
    show putBack env.restores (c.touch o.toSurroundings).attributes a = before.attributes a
    have hback : putBack env.restores o.attributes a = before.attributes a :=
      congrFun h.patched.back a
    by_cases hkey : a ∈ env.restores.map Prod.fst
    · rw [putBack_of_mem hkey _ o.attributes, hback]
    · have hleaves := ha.resolve_left fun hpatched => hkey (by
        rw [h.patched.keys]
        exact hpatched)
      rw [putBack_of_not_mem hkey, hleaves, ← hback, putBack_of_not_mem hkey]
  random := by
    intro hrandom
    show env.savedRandomState.getD (c.touch o.toSurroundings).random = before.random
    rw [h.saved]
    cases hseed : c.kw.seedRandomness with
    | true => rfl
    | false =>
      have hleaves := hrandom.resolve_left (by simp [hseed])
      show (c.touch o.toSurroundings).random = before.random
      rw [hleaves, h.random hseed]
      rfl

theorem conclude_raised {seed : Option Int} {kw : RunKwargs} {u : Universe} {t : Tape R}
    {e : PyException} (h : conclude seed true strategy kw u t = .error (.raised e)) :
    ∃ r, conclude seed false strategy kw u t = .ok r ∧ r.outcome = .error ∧ r.error = some e := by
  unfold conclude at h ⊢
  dsimp only at h ⊢
  cases herror : u.error.or (leftoverError t) with
  | none =>
    rw [herror] at h
    cases h
  | some e' =>
    rw [herror] at h
    cases h
    exact ⟨_, rfl, rfl, rfl⟩

/-- Once the environment has been entered, every exit restores the world outside. -/
theorem guarded_restores (h : c.Accepted strategy) {o : Outside γ} {env : Environment γ}
    (hentered : Entered c.python c.kw (c.launched before) o env) {setting : Setting} {t : Tape R}
    (hended : (c.guarded raiseOnError fuel strategy setting env o t).2 ≠ .error .hung) :
    c.Restored before (c.guarded raiseOnError fuel strategy setting env o t).1 ∧
      ∀ e : PyException, e.isMisalignment = true →
        (c.guarded true fuel strategy setting env o t).2 = .error (.raised e) →
          ∃ r, (c.guarded false fuel strategy setting env o t).2 = .ok r ∧ r.outcome = .error ∧
            r.error = some e := by
  unfold guarded at hended ⊢
  cases hsimulate : simulate c.main c.kw fuel setting t with
  | error e =>
    rw [hsimulate] at hended
    cases e with
    | hung => exact absurd rfl hended
    | raised e =>
      refine ⟨finish_restored hentered, fun e' he' hraised => ?_⟩
      cases hraised
      rw [simulate_raised h hsimulate] at he'
      cases he'
  | ok a => exact ⟨finish_restored hentered, fun e _ hraised => conclude_raised hraised⟩

/-- The call ends as it does seen from inside. -/
theorem execute_result (h : c.Accepted strategy) : (c.execute raiseOnError fuel before).2 =
    Simloom.execute c.main c.tape c.seed raiseOnError c.spec c.kw fuel := by
  have huniverse : universeOf c.main c.spec c.kw fuel c.tape =
      match scheduler strategy c.tape with
      | .error e => .error e
      | .ok (state, t) =>
        match entropySeed c.kw.seedRandomness t with
        | .error e => .error e
        | .ok (entropy, t) =>
          match simulate c.main c.kw fuel ⟨state, entropy, c.kw.options⟩ t with
          | .error e => .error e
          | .ok (u, t) => .ok ((strategy, u), t) := by
    have hresolve : (resolve c.spec : Taped R Strategy) c.tape = .ok (strategy, c.tape) := by
      unfold resolve
      rw [h.spec]
      rfl
    show ((resolve c.spec : Taped R Strategy) c.tape >>= fun p =>
      setUp c.main p.1 c.kw p.2 >>= fun q =>
        simulate c.main c.kw fuel q.1 q.2 >>= fun r => Except.ok ((p.1, r.1), r.2)) = _
    rw [hresolve]
    show ((scheduler strategy c.tape >>= fun p =>
      checkWorld c.main c.kw.options.world p.2 >>= fun q =>
        entropySeed c.kw.seedRandomness q.2 >>= fun r =>
          Except.ok ((⟨p.1, r.1, c.kw.options⟩ : Setting), r.2)) >>= fun q =>
        simulate c.main c.kw fuel q.1 q.2 >>= fun r => Except.ok ((strategy, r.1), r.2)) = _
    cases scheduler strategy c.tape with
    | error e => rfl
    | ok a =>
      obtain ⟨state, t⟩ := a
      show ((checkWorld c.main c.kw.options.world t >>= fun q =>
        entropySeed c.kw.seedRandomness q.2 >>= fun r =>
          Except.ok ((⟨state, r.1, c.kw.options⟩ : Setting), r.2)) >>= fun q =>
        simulate c.main c.kw fuel q.1 q.2 >>= fun r => Except.ok ((strategy, r.1), r.2)) = _
      rw [h.checkWorld_ok]
      show ((entropySeed c.kw.seedRandomness t >>= fun r =>
          Except.ok ((⟨state, r.1, c.kw.options⟩ : Setting), r.2)) >>= fun q =>
        simulate c.main c.kw fuel q.1 q.2 >>= fun r => Except.ok ((strategy, r.1), r.2)) = _
      dsimp only
      cases entropySeed c.kw.seedRandomness t with
      | error e => rfl
      | ok b =>
        obtain ⟨entropy, t'⟩ := b
        show (simulate c.main c.kw fuel ⟨state, entropy, c.kw.options⟩ t' >>= fun r =>
          Except.ok ((strategy, r.1), r.2)) = _
        dsimp only
        cases simulate c.main c.kw fuel ⟨state, entropy, c.kw.options⟩ t' <;> rfl
  rw [execute_eq h]
  unfold Simloom.execute
  rw [huniverse]
  cases scheduler strategy c.tape with
  | error e => rfl
  | ok a =>
    obtain ⟨state, t⟩ := a
    dsimp only
    unfold enter
    rcases hentropy : entropySeed c.kw.seedRandomness t with e | ⟨_ | seed, t'⟩
    · rfl
    all_goals
      dsimp only
      unfold guarded
      rcases simulate c.main c.kw fuel ⟨state, _, c.kw.options⟩ t' with (_ | e) | ⟨u, t''⟩ <;> rfl

/-- **Every exit restores the world outside** exactly if the tape serves the draws of the
set-up; or if it refuses one to the scheduler, the refusal is to be raised, and there was
no current event loop. -/
theorem restores_iff (c : Execution R γ) (raiseOnError : Bool) (before : Surroundings γ)
    (strategy : Strategy) (h : c.Accepted strategy) :
    c.Restores raiseOnError before ↔
      (c.tape.Serves strategy.draws → c.tape.Serves (strategy.draws ++ c.kw.draws)) ∧
      (¬c.tape.Serves strategy.draws → raiseOnError = true ∧ before.current = none) := by
  rcases scheduler_serves h.horizon c.tape with ⟨state, t, hok, hs⟩ | ⟨⟨e, he, herr⟩, hs⟩
  · have hdraws : c.tape.Serves strategy.draws := by
      have := (hs []).mpr trivial
      rwa [List.append_nil] at this
    simp only [hdraws, true_implies, not_true, false_implies, and_true, hs]
    rcases enter_serves c.python c.kw (c.launched before) t with
      ⟨o, env, entropy, t', henter, hserves, hentered⟩ | ⟨⟨o, e, henter, hcurrent⟩, hrefused⟩
    · refine ⟨fun _ => hserves, fun _ fuel hended => ?_⟩
      have hexecute (raise : Bool) : c.execute raise fuel before =
          c.guarded raise fuel strategy ⟨state, entropy, c.kw.options⟩ env o t' := by
        rw [execute_eq h, hok]
        dsimp only
        rw [henter]
      rw [hexecute] at hended ⊢
      obtain ⟨hrestored, hdivergence⟩ := guarded_restores h hentered hended
      refine ⟨hrestored, fun _ e he hraised => ?_⟩
      rw [hexecute] at hraised ⊢
      exact hdivergence e he hraised
    · refine ⟨fun hrestores => ?_, fun hserves => absurd hserves hrefused⟩
      have hexecute : c.execute raiseOnError 0 before = (o, .error (.raised e)) := by
        rw [execute_eq h, hok]
        dsimp only
        rw [henter]
      have hrestored := (hrestores 0 (by rw [hexecute]; exact nofun)).1.current
      rw [hexecute] at hrestored
      rw [hcurrent] at hrestored
      cases hrestored
  · have hdraws : ¬c.tape.Serves strategy.draws := by
      have := hs []
      rwa [List.append_nil] at this
    simp only [hdraws, false_implies, not_false_eq_true, true_implies, true_and]
    have hexecute (raise : Bool) (fuel : Nat) : c.execute raise fuel before =
        (⟨before, none, .unmade⟩, .error (.raised e)) := by
      rw [execute_eq h, herr]
    constructor
    · intro hrestores
      obtain ⟨hrestored, hdivergence⟩ := hrestores 0 (by rw [hexecute]; exact nofun)
      refine ⟨?_, ?_⟩
      · by_contra hraise
        rw [Bool.not_eq_true] at hraise
        obtain ⟨r, hr, _⟩ := hdivergence hraise e he (by rw [hexecute])
        rw [hexecute] at hr
        cases hr
      · have hcurrent := hrestored.current
        rw [hexecute] at hcurrent
        exact hcurrent
    · rintro ⟨hraise, hcurrent⟩ fuel _
      rw [hexecute]
      exact ⟨⟨rfl, hcurrent, by simp, fun _ _ => rfl, fun _ => rfl⟩, fun hfalse => by
        rw [hraise] at hfalse
        cases hfalse⟩

/-- A program that returns at once and leaves its surroundings alone. -/
def idle (tape : Tape zeroSource) (spec : SchedulerSpec) : Execution zeroSource Unit where
  python := ⟨fun _ => (), true⟩
  main := ⟨.ok false, fun _ _ => .finish ⟨.returned, fun _ => .finish ⟨.returned, [], [], 0, []⟩⟩⟩
  touch := id
  tape := tape
  seed := none
  spec := spec
  kw := {RunKwargs.default with seedRandomness := true, watchdog := some 5}

theorem idle_accepted (tape : Tape zeroSource) {spec : SchedulerSpec}
    (hspec : resolveScheduler spec = .ok strategy)
    (hhorizon : ∀ depth horizon, strategy = .pct depth horizon → depth ≤ 1 ∨ 1 ≤ horizon) :
    (idle tape spec).Accepted strategy where
  spec := hspec
  horizon := hhorizon
  world := ⟨false, rfl, nofun⟩
  watchdog := fun seconds hseconds => by
    cases hseconds
    decide
  interrupts := by
    intro setting replies body hfinish
    cases hfinish
    refine ⟨fun e he => (nomatch he), fun replies' teardown hfinish' e he => ?_⟩
    cases hfinish'
    cases he

/-- A recording without draws, replayed with seeded randomness: the watchdog stays armed, the
loop stays current and is not closed, and the divergence is raised. -/
theorem seeded_replay_leaks :
    let c := idle (.replayStrict []) .unspecified
    let before : Surroundings Unit := ⟨fun _ => .own 0, (), none⟩
    c.Accepted .random ∧ ¬c.Restores false before ∧
      (c.execute false 0 before).1.watchdog = some 5 ∧
      (c.execute false 0 before).1.current = some .sim ∧
      (c.execute false 0 before).1.loop = .live ∧
      ∃ e, e.isMisalignment = true ∧ (c.execute false 0 before).2 = .error (.raised e) := by
  intro c before
  have haccepted : c.Accepted .random := idle_accepted _ rfl fun _ _ h => nomatch h
  refine ⟨haccepted, fun h => ?_, rfl, rfl, rfl, _, ?_, rfl⟩
  · have hcurrent := (h 0 nofun).1.current
    cases hcurrent
  · exact (show tapeMisalignmentError.isSubclass tapeMisalignmentError = true by decide)

/-- A fresh tape serves the change points and the entropy seed. -/
theorem generated_restores : (idle (.generate 0) (.pct none none)).Restores false
    ⟨fun _ => .own 0, (), some (.other 1)⟩ := by
  refine (restores_iff _ false _ (.pct 3 4096) (idle_accepted _ rfl ?_)).mpr
    ⟨fun _ => by decide +kernel, fun h => absurd (by decide +kernel) h⟩
  intro depth horizon h
  cases h
  exact .inr (by decide)

end Execution

end Simloom
