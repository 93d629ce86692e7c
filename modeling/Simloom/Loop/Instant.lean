import Simloom.Loop.Drift
import Mathlib.Data.List.Induction

/-! A livelock is a step too many at one time, and no other.

The loop counts on one counter, for one time. Over a whole run that suffices to know of each
step how many there were before it at its time. Steps of a drain are not counted. -/
namespace Simloom.SimLoop
open Theory
variable {R : RandomSource} {σ J κ : Type} {c : LoopConfig R σ J κ} {l l' : SimLoop R σ J κ}

/-! ### The counter -/

/-- The counter, behind the time that it is for. -/
def instant (l : SimLoop R σ J κ) : ℚ × Int := (l.instantTime, l.instantSteps)

theorem deed_instant (d : Deed σ J) : (l.deed c d).instant = l.instant := by
  have hnote : ∀ (h : Handle J) (via : String), (l.noteCause c h via).instant = l.instant := by
    intro h via
    unfold noteCause
    split <;> rfl
  cases d with
  | callSoon call => exact hnote (l.agenda.next call none) "soon"
  | callAt time call => exact hnote (l.agenda.next call (some time)) "timer"
  | _ => rfl

theorem perform_instant (code : Code R σ J) : (l.perform c code).1.instant = l.instant := by
  have hdeeds : ∀ (ds : List (Deed σ J)) (m : SimLoop R σ J κ),
      (ds.foldl (fun l d => l.deed c d) m).instant = m.instant := by
    intro ds
    induction ds with
    | nil => exact fun _ => rfl
    | cons d rest ih => exact fun m => (ih (m.deed c d)).trans (deed_instant d)
  exact hdeeds _ {l with
    user := (code l.user l.now l.agenda.made l.tape).state
    tape := (code l.user l.now l.agenda.made l.tape).tape}

/-- No code moves the clock. -/
theorem perform_now (code : Code R σ J) : (l.perform c code).1.now = l.now := by
  have hdeeds : ∀ (ds : List (Deed σ J)) (m : SimLoop R σ J κ),
      (ds.foldl (fun l d => l.deed c d) m).now = m.now := by
    intro ds
    induction ds with
    | nil => exact fun _ => rfl
    | cons d rest ih =>
      intro m
      refine (ih (m.deed c d)).trans ?_
      cases d <;> rfl
  exact hdeeds _ {l with
    user := (code l.user l.now l.agenda.made l.tape).state
    tape := (code l.user l.now l.agenda.made l.tape).tape}

theorem conclude_instant (verdict : MonitorSet σ × Option Violation) :
    (l.conclude verdict).1.instant = l.instant := by
  obtain ⟨ms, v⟩ := verdict
  cases v <;> rfl

theorem finishStep_instant (result : SimLoop R σ J κ × Option PyException) :
    (finishStep result).1.instant = result.1.instant := by
  obtain ⟨l, e⟩ := result
  cases e with
  | some e => rfl
  | none =>
    unfold finishStep
    dsimp only
    split
    · exact conclude_instant _
    · rfl

/-- A step counts itself, whether or not it is one too many. -/
theorem execute_instant (index count : Nat) (h : Handle J) :
    (l.execute c index count h).1.instant = l.countInstant.instant := by
  unfold execute
  dsimp only
  split
  · rfl
  · rw [finishStep_instant]
    refine (perform_instant _).trans ?_
    show (collectDue c _).instant = _
    unfold collectDue
    split
    · exact perform_instant _
    · rfl

theorem execute_now (index count : Nat) (h : Handle J) : (l.execute c index count h).1.now = l.now := by
  unfold execute
  dsimp only
  split
  · rfl
  · unfold now
    rw [finishStep_agenda]
    refine (perform_now _).trans ?_
    show (collectDue c _).now = _
    unfold collectDue
    split
    · exact perform_now _
    · rfl

theorem settle_instant : (∀ turn, l.settle c = .inl turn → turn.1.instant = l.instant) ∧
    ∀ m, l.settle c = .inr m → m.instant = l.instant := by
  have hs := settles c l
  generalize l.settle c = s at hs
  cases hs with
  | ready =>
    refine ⟨fun turn h => (by cases h), fun m h => ?_⟩
    cases h
    rfl
  | deadlock =>
    refine ⟨fun turn h => ?_, fun m h => (by cases h)⟩
    cases h
    rfl
  | due =>
    refine ⟨fun turn h => ?_, fun m h => (by cases h)⟩
    cases h
    exact conclude_instant _
  | jump =>
    refine ⟨fun turn h => (by cases h), fun m h => ?_⟩
    cases h
    unfold jump
    split <;> rfl

theorem picks_instant {p : Pick R σ J κ} (hp : l.picks c = some p) : p.loop.instant = l.instant := by
  obtain ⟨first, rest, index, scheduler, tape, -, -, rfl⟩ := picks_some hp
  rfl

theorem nextStep_instant {p : Pick R σ J κ} (hp : l.nextStep c = some p) :
    p.loop.instant = l.instant := by
  obtain ⟨m, hpoised, hpicks⟩ := Option.bind_eq_some_iff.mp hp
  unfold poised at hpoised
  split at hpoised
  · cases hpoised
  · next m' hsettle =>
    cases hpoised
    rw [picks_instant hpicks]
    exact settle_instant.2 m' hsettle

/-- A call that comes to no step counts nothing, and finds no livelock. -/
theorem runOnce_instant (hnext : l.nextStep c = none) :
    (l.runOnce c).1.instant = l.instant ∧ ∀ n t, (l.runOnce c).2 ≠ some (.livelock n t) := by
  have hconclude : ∀ (m : SimLoop R σ J κ) verdict n t, (m.conclude verdict).2 ≠ some (.livelock n t) := by
    rintro m ⟨ms, v⟩ n t
    cases v <;> exact fun h => by cases h
  have hs := settles c l
  have hinstant := settle_instant (c := c) (l := l)
  unfold nextStep poised at hnext
  unfold runOnce
  generalize l.settle c = s at hs hinstant hnext ⊢
  have hchoose : ∀ m, s = .inr m → (m.wake.choose c).1.instant = l.instant ∧
      ∀ n t, (m.wake.choose c).2 ≠ some (.livelock n t) := by
    rintro m rfl
    have hm := hinstant.2 m rfl
    change m.wake.picks c = none at hnext
    unfold choose
    unfold picks at hnext
    cases hready : m.wake.agenda.ready with
    | nil => exact ⟨hm, fun n t h => by cases h⟩
    | cons first rest =>
      rw [hready] at hnext
      rcases hpick : c.scheduler.pick first rest m.wake.scheduler m.wake.tape with
        ⟨_ | index, scheduler, tape⟩
      · simp only
        rw [hpick]
        exact ⟨hm, fun n t h => by cases h⟩
      · simp only [hpick, reduceCtorEq] at hnext
  cases hs with
  | deadlock => exact ⟨hinstant.1 _ rfl, fun n t h => by cases h⟩
  | due => exact ⟨hinstant.1 _ rfl, hconclude _ _⟩
  | ready => exact hchoose _ rfl
  | jump => exact hchoose _ rfl

theorem drainStep_instant (index count : Nat) (h : Handle J) :
    (l.drainStep c index count h).1.instant = l.instant := perform_instant _

theorem drainReady_instant (limit : Nat) : (l.drainReady c limit).1.instant = l.instant := by
  induction limit generalizing l with
  | zero => rfl
  | succ limit ih =>
    unfold drainReady
    dsimp only
    split
    · rfl
    · next first rest _ =>
      split
      · rfl
      · next index scheduler tape _ =>
        have hstep := drainStep_instant (c := c) (l := {l with
          agenda := l.agenda.compact, scheduler := scheduler, tape := tape}) index
            (rest.length + 1) ((first :: rest).get index)
        split
        · next hdrain =>
          rw [hdrain] at hstep
          exact hstep
        · next m hdrain =>
          rw [hdrain] at hstep
          exact ih.trans hstep

/-! ### What it counts -/

variable (c) in
/-- The time of the step that a call counts. -/
def counted (l : SimLoop R σ J κ) : Drive R σ J → List ℚ
  | .once => ((l.nextStep c).map fun p => p.loop.now).toList
  | _ => []

variable (c) in
/-- The times of the steps that a run counts. -/
def ticks (l : SimLoop R σ J κ) : List (Drive R σ J) → List ℚ
  | [] => []
  | e :: rest => l.counted c e ++ ticks (l.drive c e).1 rest

/-- The counter is for the latest of these times, and says how many are at it. -/
structure Counts (times : List ℚ) (l : SimLoop R σ J κ) : Prop where
  steps : l.instantSteps = times.count l.instantTime
  past : ∀ t ∈ times, t ≤ l.instantTime
  now : l.instantTime ≤ l.now

variable {times : List ℚ}

theorem Counts.idle (hc : Counts times l) (hinstant : l'.instant = l.instant) (hnow : l.now ≤ l'.now) :
    Counts times l' := by
  obtain ⟨htime, hsteps⟩ := Prod.mk.inj hinstant
  refine ⟨?_, ?_, ?_⟩
  · rw [hsteps, htime]
    exact hc.steps
  · rw [htime]
    exact hc.past
  · rw [htime]
    exact hc.now.trans hnow

/-- The next step at the time of the clock is the one after those of that time. -/
theorem Counts.countInstant (hc : Counts times l) :
    l.countInstant.instantSteps = times.count l.now + 1 := by
  show (if l.now = l.instantTime then l.instantSteps + 1 else 1) = _
  split
  · next hnow => rw [hc.steps, hnow]
  · next hnow =>
    have hnone : times.count l.now = 0 := by
      apply List.count_eq_zero.mpr
      intro hmem
      exact hnow (le_antisymm (hc.past _ hmem) hc.now)
    rw [hnone]
    rfl

theorem Counts.tick (hc : Counts times l) (hinstant : l'.instant = l.countInstant.instant)
    (hnow : l.now ≤ l'.now) : Counts (times ++ [l.now]) l' := by
  obtain ⟨htime, hsteps⟩ := Prod.mk.inj hinstant
  have htime : l'.instantTime = l.now := htime
  refine ⟨?_, ?_, ?_⟩
  · rw [hsteps, hc.countInstant, htime, List.count_append, List.count_singleton_self]
    rfl
  · intro t ht
    rw [htime]
    rcases List.mem_append.mp ht with ht | ht
    · exact (hc.past t ht).trans hc.now
    · exact (List.mem_singleton.mp ht).le
  · rw [htime]
    exact hnow

theorem drive_now (hhand : l.agenda.hand = none) (e : Drive R σ J) : l.now ≤ (l.drive c e).1.now := by
  have hfollows : Follows True True l.agenda (l.drive c e).1.agenda ∧ _ :=
    drive_follows hhand e (fun _ _ => trivial) fun _ _ => trivial
  obtain ⟨ops, hr, _⟩ := hfollows.1
  exact (Agenda.keeps_now l.now).run (Transition.along_of_forall (fun _ _ _ => trivial) _) le_rfl hr

theorem Counts.drive (hc : Counts times l) (hhand : l.agenda.hand = none) (e : Drive R σ J) :
    Counts (times ++ l.counted c e) (l.drive c e).1 := by
  have hnow := drive_now (c := c) hhand e
  cases e with
  | once =>
    show Counts (times ++ ((l.nextStep c).map fun p => p.loop.now).toList) (l.runOnce c).1
    cases hnext : l.nextStep c with
    | none =>
      rw [Option.map_none, Option.toList_none, List.append_nil]
      exact hc.idle (runOnce_instant hnext).1 hnow
    | some p =>
      have hpicked : Counts times p.loop := hc.idle (nextStep_instant hnext) (nextStep_drift hnext).now
      have hrun := (runOnce_of_some hhand hnext).1
      rw [Option.map_some, Option.toList_some]
      apply hpicked.tick
      · rw [hrun]
        exact execute_instant p.index p.count p.handle
      · rw [hrun, execute_now]
  | drain limit =>
    show Counts (times ++ []) _
    rw [List.append_nil]
    exact hc.idle (drainReady_instant limit) hnow
  | outside code =>
    show Counts (times ++ []) _
    rw [List.append_nil]
    exact hc.idle (perform_instant code) hnow
  | finalize =>
    show Counts (times ++ []) _
    rw [List.append_nil]
    refine hc.idle ?_ hnow
    unfold SimLoop.drive finalizeMonitors
    dsimp only
    split
    · rfl
    · exact conclude_instant _
  | leave | unmonitor | revive =>
    show Counts (times ++ []) _
    rw [List.append_nil]
    exact hc.idle rfl hnow

theorem ticks_append (before later : List (Drive R σ J)) :
    l.ticks c (before ++ later) = l.ticks c before ++ (l.after c before).ticks c later := by
  induction before generalizing l with
  | nil => rfl
  | cons e rest ih =>
    rw [List.cons_append, ticks, ticks, ih, List.append_assoc]
    rfl

theorem Counts.after (hc : Counts times l) (hhand : l.agenda.hand = none) (es : List (Drive R σ J)) :
    Counts (times ++ l.ticks c es) (l.after c es) := by
  induction es generalizing l times with
  | nil =>
    rw [ticks, List.append_nil]
    exact hc
  | cons e rest ih =>
    rw [ticks, ← List.append_assoc]
    exact ih (hc.drive hhand e) (after_hand (c := c) hhand [e])

/-! ### Livelocks -/

theorem execute_livelock {index count : Nat} {h : Handle J} (n : Int) (t : ℚ) :
    (l.execute c index count h).2 = some (.livelock n t) ↔
      c.maxStepsPerInstant < l.countInstant.instantSteps ∧ n = l.countInstant.instantSteps ∧ t = l.now := by
  have hfinish : ∀ result : SimLoop R σ J κ × Option PyException,
      (finishStep result).2 ≠ some (.livelock n t) := by
    rintro ⟨m, e⟩
    cases e with
    | some e => exact fun h => by cases h
    | none =>
      unfold finishStep
      dsimp only
      split
      · unfold checkStep
        generalize m.bound.monitors.afterStep m.bound.user m.bound.now = verdict
        obtain ⟨ms, v⟩ := verdict
        cases v <;> exact fun h => by cases h
      · exact fun h => by cases h
  unfold execute
  dsimp only
  split
  · next hlate =>
    rw [Option.some.injEq, LoopError.livelock.injEq]
    exact ⟨fun h => ⟨hlate, h.1.symm, h.2.symm⟩, fun h => ⟨h.2.1.symm, h.2.2.symm⟩⟩
  · next hlate => exact ⟨fun h => absurd h (hfinish _), fun h => absurd h.1 hlate⟩

theorem runOnce_livelock (hc : Counts times l) (hhand : l.agenda.hand = none) (n : Int) (t : ℚ) :
    (l.runOnce c).2 = some (.livelock n t) ↔ ∃ p, l.nextStep c = some p ∧ t = p.loop.now ∧
      n = times.count t + 1 ∧ c.maxStepsPerInstant < n := by
  cases hnext : l.nextStep c with
  | none => simpa using (runOnce_instant hnext).2 n t
  | some p =>
    have hpicked : Counts times p.loop := hc.idle (nextStep_instant hnext) (nextStep_drift hnext).now
    rw [(runOnce_of_some hhand hnext).1, execute_livelock, hpicked.countInstant]
    constructor
    · rintro ⟨hlate, rfl, rfl⟩
      exact ⟨p, rfl, rfl, rfl, hlate⟩
    · rintro ⟨_, hp, rfl, rfl, hlate⟩
      obtain rfl := Option.some.inj hp
      exact ⟨hlate, rfl, rfl⟩

/-- **A livelock is exactly a step too many.** In any run a call raises it if and only if it
comes to a step before which as many steps as are allowed, or more, were made at its time;
it tells their number and that time. So at no time are more steps made than are allowed,
unless one of the calls raised it for that time. -/
theorem livelock_exact (c : LoopConfig R σ J κ) (epoch : ℚ) (user : σ) (tape : Tape R) (scheduler : κ)
    (es : List (Drive R σ J)) :
    let l₀ := start epoch user tape scheduler
    (∀ n t, ((l₀.after c es).runOnce c).2 = some (.livelock n t) ↔
      ∃ p, (l₀.after c es).nextStep c = some p ∧ t = p.loop.now ∧
        n = (l₀.ticks c es).count t + 1 ∧ c.maxStepsPerInstant < n) ∧
    ∀ t, ((l₀.ticks c es).count t : Int) ≤ max c.maxStepsPerInstant 0 ∨
      ∃ before later n, es = before ++ .once :: later ∧
        ((l₀.after c before).runOnce c).2 = some (.livelock n t) := by
  intro l₀
  have hstart : Counts [] l₀ := ⟨rfl, fun _ h => absurd h List.not_mem_nil, le_rfl⟩
  have hcounts : ∀ es, Counts (l₀.ticks c es) (l₀.after c es) := fun es => hstart.after rfl es
  have hexact : ∀ es n t, ((l₀.after c es).runOnce c).2 = some (.livelock n t) ↔ _ := fun es =>
    runOnce_livelock (hcounts es) (after_hand (c := c) rfl es)
  refine ⟨hexact es, fun t => ?_⟩
  induction es using List.reverseRecOn with
  | nil => exact .inl (le_max_right _ _)
  | append_singleton es e ih =>
    rcases ih with hle | ⟨before, later, n, rfl, hraised⟩
    · rw [ticks_append, ticks, ticks, List.append_nil, List.count_append, Nat.cast_add]
      cases e with
      | once =>
        rw [counted]
        cases hnext : (l₀.after c es).nextStep c with
        | none => exact .inl (by simpa using hle)
        | some p =>
          by_cases ht : p.loop.now = t
          · by_cases hlate : c.maxStepsPerInstant < ((l₀.ticks c es).count t : Int) + 1
            · exact .inr ⟨es, [], _, rfl, (hexact es _ t).mpr ⟨p, hnext, ht.symm, rfl, hlate⟩⟩
            · refine .inl ((le_trans ?_ (not_lt.mp hlate)).trans (le_max_left _ _))
              rw [Option.map_some, Option.toList_some, ht, List.count_singleton_self]
              exact le_rfl
          · refine .inl ?_
            rw [Option.map_some, Option.toList_some, List.count_singleton, if_neg (by simpa using ht)]
            simpa using hle
      | _ => exact .inl (by simpa [counted] using hle)
    · exact .inr ⟨before, later ++ [e], n, by simp, hraised⟩

end Simloom.SimLoop
