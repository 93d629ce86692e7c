import Simloom.Loop.Drive

/-! The loop moves its agenda along the agenda's own operations.

So what these keep, runs of the loop keep. A call may lose a handle only where the step it
makes is one too many at its instant (`isSpent`), and may crash the task whose handle it has
at hand only in its garbage collection (`Calm` excludes that). -/
namespace Simloom.SimLoop
open Theory Agenda
variable {R : RandomSource} {σ J κ : Type}

/-! ### Operations of the agenda -/

/-- Operations of a run that may lose handles only if `lossy`, and crash what a step has at
hand only if `rash`. -/
def Allowed (lossy rash : Prop) (a : Agenda J) : Agenda.Op J → Prop
  | .lose => lossy
  | .crashTasks tasks => rash ∨ a.Spares tasks
  | _ => True

/-- The agenda moves along its own operations. -/
abbrev Follows (lossy rash : Prop) (a a' : Agenda J) : Prop :=
  Transition.Reaches Agenda.step (Allowed lossy rash) a a'

variable {lossy rash : Prop} {c : LoopConfig R σ J κ} {l : SimLoop R σ J κ}

/-! ### Running code -/

@[simp] theorem deed_hand (d : Deed σ J) : (l.deed c d).agenda.hand = l.agenda.hand := by
  cases d <;> rfl

theorem deed_follows {d : Deed σ J}
    (hs : ∀ tasks, d = .crashTasks tasks → rash ∨ l.agenda.Spares tasks) :
    Follows lossy rash l.agenda (l.deed c d).agenda := by
  cases d with
  | callSoon call => exact .one (e := .callSoon call) rfl trivial
  | callAt time call => exact .one (e := .callAt time call) rfl trivial
  | cancel id => exact .one (e := .cancel id) rfl trivial
  | crashTasks tasks => exact .one (e := .crashTasks tasks) rfl (hs tasks rfl)
  | stop => exact .refl _
  | emit event => exact .refl _
  | always label predicate => exact .refl _
  | eventually label predicate within => exact .refl _
  | leadsTo label trigger response within => exact .refl _

theorem deeds_follow {ds : List (Deed σ J)}
    (hs : ∀ tasks, .crashTasks tasks ∈ ds → rash ∨ l.agenda.Spares tasks) :
    Follows lossy rash l.agenda (ds.foldl (fun l d => l.deed c d) l).agenda ∧
      (ds.foldl (fun l d => l.deed c d) l).agenda.hand = l.agenda.hand := by
  induction ds generalizing l with
  | nil => exact ⟨.refl _, rfl⟩
  | cons d rest ih =>
    have hd : Follows lossy rash l.agenda (l.deed c d).agenda :=
      deed_follows fun tasks h => hs tasks (h ▸ List.mem_cons_self)
    have hrest := ih (l := l.deed c d) fun tasks hin => by
      rw [Spares, deed_hand]
      exact hs tasks (List.mem_cons_of_mem _ hin)
    exact ⟨hd.trans hrest.1, hrest.2.trans (deed_hand d)⟩

theorem perform_follows {code : Code R σ J}
    (hs : ∀ tasks, .crashTasks tasks ∈ (code l.user l.now l.agenda.made l.tape).deeds →
      rash ∨ l.agenda.Spares tasks) :
    Follows lossy rash l.agenda (l.perform c code).1.agenda ∧
      (l.perform c code).1.agenda.hand = l.agenda.hand :=
  deeds_follow (l := {l with
    user := (code l.user l.now l.agenda.made l.tape).state
    tape := (code l.user l.now l.agenda.made l.tape).tape}) hs

/-- With nothing at hand, any code. -/
theorem perform_idle {code : Code R σ J} (hhand : l.agenda.hand = none) :
    Follows lossy rash l.agenda (l.perform c code).1.agenda ∧
      (l.perform c code).1.agenda.hand = none := by
  have hspares (tasks : List TaskId) : l.agenda.Spares tasks := fun h hin =>
    nomatch hhand.symm.trans hin
  obtain ⟨hf, hh⟩ : Follows lossy rash l.agenda (l.perform c code).1.agenda ∧
      (l.perform c code).1.agenda.hand = l.agenda.hand :=
    perform_follows fun tasks _ => .inr (hspares tasks)
  exact ⟨hf, hh.trans hhand⟩

/-! ### Monitors -/

@[simp] theorem conclude_agenda (verdict : MonitorSet σ × Option Violation) :
    (l.conclude verdict).1.agenda = l.agenda := by
  obtain ⟨ms, v⟩ := verdict
  cases v <;> rfl

theorem finalizeMonitors_agenda : l.finalizeMonitors.1.agenda = l.agenda := by
  unfold finalizeMonitors
  split
  · rfl
  · exact conclude_agenda _

/-! ### One step -/

/-- Nothing that is ready is dead. -/
def Clean (a : Agenda J) : Prop := ∀ h ∈ a.ready, a.isDead h = false

@[simp] theorem compact_isDead (a : Agenda J) (h : Handle J) : a.compact.isDead h = a.isDead h := by
  unfold Agenda.compact
  split <;> rfl

theorem compact_clean (a : Agenda J) : Clean a.compact := by
  intro h hin
  rw [compact_ready] at hin
  rw [compact_isDead]
  exact (Bool.not_eq_true' _).mp (List.mem_filter.mp hin).2

theorem compact_follows (a : Agenda J) : Follows lossy rash a a.compact := by
  unfold Agenda.compact
  split
  · exact .one (e := .compactReady) rfl trivial
  · exact .refl _

@[simp] theorem compact_hand (a : Agenda J) : a.compact.hand = a.hand := by
  unfold Agenda.compact
  split <;> rfl

theorem wake_clean {a : Agenda J} (h : Clean a) : Clean a.wake := by
  intro x hin
  rcases List.mem_append.mp hin with hin | hin
  · exact h x hin
  · have hlive := (List.mem_filter.mp hin).2
    exact (Bool.not_eq_true' _).mp hlive

/-- Where a step has come from a state: along operations, by handles that were there. -/
structure Came (lossy rash : Prop) (a a' : Agenda J) : Prop where
  follows : Follows lossy rash a a'
  hand : a'.hand = a.hand
  made : a'.made = a.made
  mem : ∀ h ∈ a'.ready ++ a'.scheduled, h ∈ a.ready ++ a.scheduled

theorem Came.trans {a b d : Agenda J} (h : Came lossy rash a b) (h' : Came lossy rash b d) :
    Came lossy rash a d :=
  ⟨h.follows.trans h'.follows, h'.hand.trans h.hand, h'.made.trans h.made,
    fun x hx => h.mem x (h'.mem x hx)⟩

theorem tidy_came : Came lossy rash l.agenda l.tidy.agenda where
  follows := .trans (.one (e := .dropTops) rfl trivial) (compact_follows l.agenda.dropTops)
  hand := compact_hand _
  made := by
    unfold tidy Agenda.compact
    split <;> rfl
  mem := fun h hin => by
    rcases List.mem_append.mp hin with hin | hin
    · unfold tidy at hin
      rw [compact_ready] at hin
      exact List.mem_append_left _ (List.mem_filter.mp hin).1
    · unfold tidy at hin
      rw [compact_scheduled] at hin
      exact List.mem_append_right _ ((List.dropWhile_sublist _).subset hin)

theorem wake_came (a : Agenda J) : Came lossy rash a a.wake where
  follows := .one (e := .wake) rfl trivial
  hand := rfl
  made := rfl
  mem := fun h hin => by
    rcases List.mem_append.mp hin with hin | hin
    · rcases List.mem_append.mp hin with hin | hin
      · exact List.mem_append_left _ hin
      · exact List.mem_append_right _
          ((List.takeWhile_sublist _).subset (List.mem_filter.mp hin).1)
    · exact List.mem_append_right _ ((List.dropWhile_sublist _).subset hin)

theorem Came.refl (a : Agenda J) : Came lossy rash a a := ⟨.refl a, rfl, rfl, fun _ h => h⟩

/-- With nothing ready, time comes to the next timer, or to a deadline before it. -/
theorem advance_came {a : Agenda J} {time : ℚ} (h : a.Awaits time) :
    Came lossy rash a {a with now := time} where
  follows := .one (e := .advance time) (if_pos h) trivial
  hand := rfl
  made := rfl
  mem := fun _ hin => hin

theorem jump_came {top : Handle J} {rest : List (Handle J)} (hready : l.agenda.ready = [])
    (hhand : l.agenda.hand = none) (hs : l.agenda.scheduled = top :: rest) :
    Came lossy rash l.agenda (l.jump top.time).agenda := by
  unfold jump
  split
  next hlt =>
    refine advance_came ⟨hready, hhand, hlt.le, fun x hx => ?_⟩
    rw [hs] at hx
    cases hx
    exact le_rfl
  next => exact .refl _

theorem jump_clean {target : ℚ} (hready : l.agenda.ready = []) : Clean (l.jump target).agenda := by
  have hjump : (l.jump target).agenda.ready = [] := by
    unfold jump
    split <;> exact hready
  intro h hin
  rw [hjump] at hin
  cases hin


variable (lossy rash) in
/-- What comes before a handle is taken. -/
theorem settle_came (hhand : l.agenda.hand = none) :
    (∀ turn, l.settle c = .inl turn → Came lossy rash l.agenda turn.1.agenda) ∧
      ∀ l', l.settle c = .inr l' → Came lossy rash l.agenda l'.agenda ∧ Clean l'.agenda := by
  have htidy : Came lossy rash l.agenda l.tidy.agenda := tidy_came
  have hidle : l.tidy.agenda.hand = none := htidy.hand.trans hhand
  have hs := settles c l
  generalize l.settle c = s at hs
  cases hs with
  | ready =>
    refine ⟨fun turn h => (nomatch h), fun l' h => ?_⟩
    cases h
    exact ⟨htidy, compact_clean _⟩
  | deadlock =>
    refine ⟨fun turn h => ?_, fun l' h => (nomatch h)⟩
    cases h
    exact htidy
  | @due top rest deadline hready hscheduled _ hdue =>
    refine ⟨fun turn h => ?_, fun l' h => (nomatch h)⟩
    cases h
    unfold checkDue
    rw [conclude_agenda]
    refine htidy.trans ?_
    rcases le_or_gt deadline l.now with hle | hlt
    · rw [max_eq_left hle, ← tidy_now]
      exact .refl _
    · rw [max_eq_right hlt.le]
      refine advance_came ⟨hready, hidle, (tidy_now l).trans_le hlt.le, fun x hx => ?_⟩
      rw [hscheduled] at hx
      cases hx
      exact (hdue.resolve_left (not_le.mpr hlt)).le
  | @jump top rest hready hscheduled _ =>
    refine ⟨fun turn h => (nomatch h), fun l' h => ?_⟩
    cases h
    exact ⟨htidy.trans (jump_came hready hidle hscheduled), jump_clean hready⟩

/-! ### Taking a handle -/

theorem finishStep_agenda (result : SimLoop R σ J κ × Option PyException) :
    (finishStep result).1.agenda = result.1.agenda := by
  obtain ⟨l, e⟩ := result
  cases e with
  | some e => rfl
  | none =>
    dsimp only [finishStep]
    split
    · exact conclude_agenda _
    · rfl

/-- Take a handle that is ready and not dead. -/
theorem take_follows {a : Agenda J} {index : Nat} {h : Handle J} (hhand : a.hand = none)
    (hget : a.ready[index]? = some h) (hclean : Clean a) :
    Follows lossy rash a (a.take index) := by
  have hlive : a.isDead h = false := hclean h (List.mem_of_getElem? hget)
  refine .one (e := .take index) (if_pos ?_) trivial
  simp [hhand, hget, hlive]

theorem runHandle_follows (h : Handle J) :
    Follows lossy rash l.agenda (l.runHandle c h).1.agenda ∧
      (l.runHandle c h).1.agenda.hand = none := by
  have hrun : Follows lossy rash l.agenda l.agenda.run := .one (e := .run) rfl trivial
  obtain ⟨hf, hh⟩ : Follows lossy rash l.agenda.run (l.runHandle c h).1.agenda ∧
      (l.runHandle c h).1.agenda.hand = none :=
    perform_idle (l := {l with agenda := l.agenda.run}) rfl
  exact ⟨hrun.trans hf, hh⟩

theorem execute_follows {index count : Nat} {h : Handle J} (hhand : l.agenda.hand = none)
    (hget : l.agenda.ready[index]? = some h) (hclean : Clean l.agenda)
    (hlossy : c.maxStepsPerInstant < l.countInstant.instantSteps → lossy)
    {taken : SimLoop R σ J κ} (htaken : taken = ((l.takeStep c index count h).numberStep).countInstant)
    (hrash : ¬ c.maxStepsPerInstant < taken.instantSteps →
      c.gcInterval ≠ 0 ∧ (taken.stepSeq : Int) % c.gcInterval = 0 → ∀ tasks,
        .crashTasks tasks ∈
          (c.code.collect taken.user taken.now taken.agenda.made taken.tape).deeds →
        rash ∨ ∀ task ∈ tasks, h.call.self ≠ some task) :
    Follows lossy rash l.agenda (l.execute c index count h).1.agenda ∧
      (l.execute c index count h).1.agenda.hand = none := by
  have hfollows : Follows lossy rash l.agenda taken.agenda :=
    htaken ▸ take_follows hhand hget hclean
  have htook : taken.agenda.hand = some h := by
    rw [htaken, ← hget]
    rfl
  unfold execute
  dsimp only
  rw [← htaken]
  split
  next hlate =>
    refine ⟨hfollows.trans (.one (e := .lose) rfl (hlossy (by rwa [htaken] at hlate))), rfl⟩
  next hpunctual =>
    rw [finishStep_agenda]
    have hcollect : Follows lossy rash taken.agenda (taken.collectDue c).agenda := by
      unfold collectDue
      split
      next hdue =>
        refine (perform_follows (l := taken) fun tasks hin => ?_).1
        refine (hrash hpunctual hdue tasks hin).imp_right fun hs x hx => ?_
        obtain rfl : h = x := Option.some.inj (htook.symm.trans hx)
        exact hs
      next => exact .refl _
    obtain ⟨hf, hh⟩ : Follows lossy rash (taken.collectDue c).agenda
        ((taken.collectDue c).runHandle c h).1.agenda ∧
          ((taken.collectDue c).runHandle c h).1.agenda.hand = none := runHandle_follows h
    exact ⟨(hfollows.trans hcollect).trans hf, hh⟩

theorem choose_follows (hhand : l.agenda.hand = none) (hclean : Clean l.agenda)
    (hlossy : ∀ first rest, l.agenda.ready = first :: rest →
      (c.scheduler.pick first rest l.scheduler l.tape).1.isOk →
      c.maxStepsPerInstant < l.countInstant.instantSteps → lossy)
    (hrash : ∀ h taken, l.collectingFor c = some (h, taken) → ∀ tasks,
      .crashTasks tasks ∈
        (c.code.collect taken.user taken.now taken.agenda.made taken.tape).deeds →
      rash ∨ ∀ task ∈ tasks, h.call.self ≠ some task) :
    Follows lossy rash l.agenda (l.choose c).1.agenda ∧ (l.choose c).1.agenda.hand = none := by
  unfold choose
  split
  next => exact ⟨.refl _, hhand⟩
  next first rest hready =>
    split
    next e scheduler tape _ => exact ⟨.refl _, hhand⟩
    next index scheduler tape hpick =>
      have hget : l.agenda.ready[index.val]? = some ((first :: rest).get index) := by
        rw [hready]
        exact List.getElem?_eq_getElem index.isLt
      refine execute_follows (l := {l with scheduler := scheduler, tape := tape}) hhand hget hclean
        (fun hlate => hlossy first rest hready (by rw [hpick]; rfl) hlate) rfl
        fun hpunctual hdue => hrash _ _ ?_
      simp only [collectingFor, hready, hpick]
      rw [if_neg hpunctual, if_pos hdue]

/-- **A step moves the agenda along its own operations.** -/
theorem runOnce_follows (hhand : l.agenda.hand = none) (hlossy : l.isSpent c = true → lossy)
    (hrash : ¬ l.Calm c → rash) :
    Follows lossy rash l.agenda (l.runOnce c).1.agenda ∧ (l.runOnce c).1.agenda.hand = none := by
  obtain ⟨hends, hgoes⟩ := settle_came lossy rash (c := c) hhand
  unfold runOnce
  split
  next turn hturn =>
    exact ⟨(hends turn hturn).follows, (hends turn hturn).hand.trans hhand⟩
  next l' hl' =>
    obtain ⟨hcame, hclean⟩ := hgoes l' hl'
    have hwake := hcame.trans (wake_came l'.agenda)
    refine (choose_follows (l := l'.wake) (hwake.hand.trans hhand) (wake_clean hclean)
      (fun first rest hready hok hlate => hlossy ?_) fun h taken hcollecting tasks hin => ?_).imp_left
        hwake.follows.trans
    · simp only [isSpent, poised, hl', Option.any_some, hready, hok, hlate, decide_true,
        Bool.and_true]
    · by_cases hcalm : l.Calm c
      · exact .inr (hcalm h taken (by simp only [poised, hl', Option.bind_some, hcollecting]) tasks hin)
      · exact .inl (hrash hcalm)

/-! ### Draining -/

theorem drainReady_follows (limit : Nat) {l : SimLoop R σ J κ} (hhand : l.agenda.hand = none) :
    Follows lossy rash l.agenda (l.drainReady c limit).1.agenda ∧
      (l.drainReady c limit).1.agenda.hand = none := by
  induction limit generalizing l with
  | zero => exact ⟨.refl _, hhand⟩
  | succ limit ih =>
    have hcompact : Follows lossy rash l.agenda l.agenda.compact := compact_follows _
    have hidle : l.agenda.compact.hand = none := (compact_hand _).trans hhand
    unfold drainReady
    dsimp only
    split
    next => exact ⟨hcompact, hidle⟩
    next first rest hready =>
      split
      next => exact ⟨hcompact, hidle⟩
      next index scheduler tape hpick =>
        have hget : l.agenda.compact.ready[index.val]? = some ((first :: rest).get index) := by
          rw [hready]
          exact List.getElem?_eq_getElem index.isLt
        have htake : Follows lossy rash l.agenda.compact (l.agenda.compact.take index) :=
          take_follows hidle hget (compact_clean _)
        let taken := takeStep c {l with
          agenda := l.agenda.compact, scheduler := scheduler, tape := tape}
          index (rest.length + 1) ((first :: rest).get index)
        obtain ⟨hrun, hdone⟩ : Follows lossy rash taken.agenda
            (taken.runHandle c ((first :: rest).get index)).1.agenda ∧
              (taken.runHandle c ((first :: rest).get index)).1.agenda.hand = none :=
          runHandle_follows _
        have hstep := (hcompact.trans htake).trans hrun
        split
        next l' e hraised =>
          rw [drainStep] at hraised
          rw [hraised] at hstep hdone
          exact ⟨hstep, hdone⟩
        next l' hl' =>
          rw [drainStep] at hl'
          rw [hl'] at hstep hdone
          obtain ⟨hf, hh⟩ := ih (l := l'.bound) hdone
          exact ⟨hstep.trans hf, hh⟩

/-! ### Any call -/

/-- **Every call moves the agenda along its own operations.** -/
theorem drive_follows (hhand : l.agenda.hand = none) (e : Drive R σ J)
    (hlossy : e = .once → l.isSpent c = true → lossy) (hrash : e = .once → ¬ l.Calm c → rash) :
    Follows lossy rash l.agenda (l.drive c e).1.agenda ∧ (l.drive c e).1.agenda.hand = none := by
  cases e with
  | once => exact runOnce_follows hhand (hlossy rfl) (hrash rfl)
  | drain limit => exact drainReady_follows limit hhand
  | outside code => exact perform_idle hhand
  | finalize =>
    dsimp only [drive]
    rw [finalizeMonitors_agenda]
    exact ⟨.refl _, hhand⟩
  | leave => exact ⟨.refl _, hhand⟩
  | unmonitor => exact ⟨.refl _, hhand⟩
  | revive => exact ⟨.one (e := .reviveCrashed) rfl trivial, hhand⟩

/-- What a run asks of its calls: not to lose work, or to spare what a step has at hand. -/
def Careful (lossy rash : Prop) (c : LoopConfig R σ J κ) (l : SimLoop R σ J κ)
    (e : Drive R σ J) : Prop :=
  (e = .once → l.isSpent c = true → lossy) ∧ (e = .once → ¬ l.Calm c → rash)

/-- **A run moves the agenda along its own operations.** -/
theorem run_follows {l' : SimLoop R σ J κ} {es : List (Drive R σ J)} (hhand : l.agenda.hand = none)
    (hP : Transition.Along (move c) (Careful lossy rash c) l es)
    (hr : Transition.run (move c) l es = some l') :
    Follows lossy rash l.agenda l'.agenda ∧ l'.agenda.hand = none := by
  have hkeep : Transition.Keeps (move c) (Careful lossy rash c) fun l => l.agenda.hand = none := by
    intro l e l' hP hhand h
    exact Option.some.inj h ▸ (drive_follows hhand e hP.1 hP.2).2
  refine ⟨Transition.reaches_run agenda hkeep (fun l e l' hhand hP h => ?_) hP hhand hr,
    hkeep.run hP hhand hr⟩
  exact Option.some.inj h ▸ (drive_follows hhand e hP.1 hP.2).1

/-- Any run, where nothing is asked. -/
theorem run_follows_any {l' : SimLoop R σ J κ} {es : List (Drive R σ J)}
    (hhand : l.agenda.hand = none) (hr : Transition.run (move c) l es = some l') :
    Follows True True l.agenda l'.agenda ∧ l'.agenda.hand = none :=
  run_follows hhand (Transition.along_of_forall (fun _ _ _ => ⟨fun _ _ => trivial,
    fun _ _ => trivial⟩) l) hr

end Simloom.SimLoop
