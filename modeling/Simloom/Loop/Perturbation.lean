import Simloom.Loop.Bare
import Simloom.Loop.Runs

/-! Monitors that find nothing perturb nothing.

The two loops go in lockstep but where there is nothing ready. There the loop with monitors
stops at each deadline before the next timer, while the one without has not moved. Each such
call settles a deadline, so they move together again (`shadows`). -/
namespace Simloom

/-! ### Deadlines that are settled -/

section Deadlines
variable {σ : Type} {s : σ} {now : ℚ} {i : Nat}

/-- What a goal owes. -/
def Eventually.owed (e : Eventually σ) : Option ℚ := if e.satisfied then none else some e.deadline

theorem Eventually.fireDue_owed {e : Eventually σ} (h : (e.fireDue s now i).2 = none) :
    (e.fireDue s now i).1.owed = e.owed.filter fun d => decide (now < d) := by
  unfold Eventually.fireDue Eventually.demand at h ⊢
  unfold Eventually.owed
  cases hmet : e.satisfied with
  | true => simp [hmet]
  | false =>
    rcases le_or_gt e.deadline now with hle | hlt
    · cases hholds : e.predicate s now with
      | true => simp [hle, Option.filter, not_lt.mpr hle]
      | false => simp [hmet, hle, hholds] at h
    · simp [hmet, hlt, not_le.mpr hlt, Option.filter]

theorem LeadsTo.fireDue_owed {m : LeadsTo σ} (h : (m.fireDue s now i).2 = none) :
    (m.fireDue s now i).1.armedDeadline =
      m.armedDeadline.filter fun d => decide (now < d) := by
  unfold LeadsTo.fireDue at h ⊢
  cases harmed : m.armedDeadline with
  | none => simp [harmed]
  | some d =>
    rw [harmed] at h
    rcases le_or_gt d now with hle | hlt
    · cases hholds : m.response s now with
      | true => simp [hle, Option.filter, not_lt.mpr hle]
      | false => simp [hle, hholds] at h
    · simp [harmed, hlt, not_le.mpr hlt, Option.filter]

/-- Deadlines that have come are settled, unless there is a violation. -/
theorem MonitorSet.fireDue_deadlines {ms : MonitorSet σ} (h : (ms.fireDue s now).2 = none) :
    (ms.fireDue s now).1.deadlines = ms.deadlines.filter fun d => decide (now < d) := by
  unfold MonitorSet.fireDue MonitorSet.demand at h ⊢
  split at h
  next => cases h
  next es hes =>
    have hgoals : (sweep (Eventually.fireDue s now) 0 ms.eventually).1.filterMap Eventually.owed =
        (ms.eventually.filterMap Eventually.owed).filter fun d => decide (now < d) :=
      sweep_filterMap (fun _ _ => Eventually.fireDue_owed) (by rw [hes])
    rw [hes] at hgoals
    have hresponses := sweep_filterMap (f := LeadsTo.fireDue s now) (i := 0) (l := ms.leadsTo)
      (fun _ _ => LeadsTo.fireDue_owed) h
    unfold MonitorSet.deadlines
    rw [List.filter_append, ← hresponses]
    exact congrArg (· ++ _) hgoals

/-- One that has come is settled, so fewer are left. -/
theorem MonitorSet.fireDue_fewer {ms : MonitorSet σ} (h : (ms.fireDue s now).2 = none)
    {d : ℚ} (hd : ms.nextDeadline = some d) (hdue : d ≤ now) :
    (ms.fireDue s now).1.deadlines.length < ms.deadlines.length := by
  rw [fireDue_deadlines h]
  refine List.length_filter_lt_length_iff_exists.mpr ⟨d, ?_, by simpa using hdue⟩
  exact List.min?_mem hd

end Deadlines

namespace SimLoop
open Theory
variable {R : RandomSource} {σ J κ : Type} {c : LoopConfig R σ J κ} {l l' m n : SimLoop R σ J κ}
  {e : Option LoopError}

/-! ### Ways a step settles -/

theorem settle_ready (hready : l.tidy.agenda.ready ≠ []) : l.settle c = .inr l.tidy :=
  if_neg (by simpa [List.isEmpty_iff] using hready)

theorem settle_deadlock (hready : l.tidy.agenda.ready = [])
    (hscheduled : l.tidy.agenda.scheduled = []) : l.settle c = .inl (l.tidy.reportDeadlock c) := by
  unfold settle
  rw [if_pos (List.isEmpty_iff.mpr hready), await]
  split
  · rfl
  next hcons => exact nomatch hscheduled.symm.trans hcons

theorem settle_jump {top : Handle J} {rest : List (Handle J)} (hready : l.tidy.agenda.ready = [])
    (hscheduled : l.tidy.agenda.scheduled = top :: rest) (hnone : l.tidy.nextDeadline = none) :
    l.settle c = .inr (l.tidy.jump top.time) := by
  unfold settle
  rw [if_pos (List.isEmpty_iff.mpr hready), await, hscheduled]
  dsimp only
  rw [hnone]

/-- A step looks at the tidied loop. -/
theorem settle_tidy (htidy : l.tidy.tidy = l.tidy) : l.tidy.settle c = l.settle c := by
  unfold settle
  rw [htidy]

theorem runOnce_tidy (htidy : l.tidy.tidy = l.tidy) : l.tidy.runOnce c = l.runOnce c := by
  unfold runOnce
  rw [settle_tidy htidy]

/-- Nothing is ready, and the next timer is live: there is nothing to tidy. -/
theorem tidy_idle {top : Handle J} {rest : List (Handle J)} (hready : l.agenda.ready = [])
    (hscheduled : l.agenda.scheduled = top :: rest) (hlive : l.agenda.isCancelled top = false) :
    l.tidy = l := by
  have htops : l.agenda.dropTops = l.agenda := by
    unfold Agenda.dropTops
    rw [hscheduled, List.dropWhile_cons_of_neg (by simp [hlive]), ← hscheduled]
  have hcompact : l.agenda.compact = l.agenda := by
    unfold Agenda.compact
    rw [if_neg (by simp [hready])]
  unfold tidy
  rw [htops, hcompact]

/-- What tidying leaves on top of the heap is not cancelled. -/
theorem tidy_top {top : Handle J} {rest : List (Handle J)}
    (hscheduled : l.tidy.agenda.scheduled = top :: rest) : l.tidy.agenda.isCancelled top = false := by
  have htop := List.head?_dropWhile_not l.agenda.isCancelled l.agenda.scheduled
  unfold tidy at hscheduled ⊢
  rw [Agenda.compact_scheduled] at hscheduled
  rw [show l.agenda.scheduled.dropWhile l.agenda.isCancelled = top :: rest from hscheduled] at htop
  unfold Agenda.compact
  split <;> exact htop

/-! ### The loop that waits -/

/-- The loop `l` goes from deadline to deadline; the one without monitors, `l'`, has not
moved yet. -/
structure Waits (l l' : SimLoop R σ J κ) : Prop where
  going : l.stopping = false
  idle : l.agenda.ready = []
  tidied : l'.tidy = l.bare.arrive l'.now
  timer : ∃ top rest, l.agenda.scheduled = top :: rest ∧ l.agenda.isCancelled top = false ∧
    (l.now = l'.now ∨ l'.now < l.now ∧ l.now < top.time)

/-- The two loops between their steps. -/
def Shadows (l l' : SimLoop R σ J κ) : Prop := l' = l.bare ∨ Waits l l'

/-- A loop with nothing ready starts to wait. -/
theorem waits_tidy {top : Handle J} {rest : List (Handle J)} (hgoing : l.stopping = false)
    (hready : l.tidy.agenda.ready = []) (hscheduled : l.tidy.agenda.scheduled = top :: rest) :
    Waits l.tidy l.bare where
  going := hgoing
  idle := hready
  tidied := by
    show l.tidy.bare = l.tidy.bare.arrive l.now
    rw [← tidy_now l]
    rfl
  timer := ⟨top, rest, hscheduled, tidy_top hscheduled, .inl (tidy_now l)⟩

theorem nextDeadline_some {d : ℚ} (h : l.nextDeadline = some d) :
    l.monitors.nextDeadline = some d := by
  unfold nextDeadline at h
  split at h
  · cases h
  · exact h

theorem arrive_bare_jump {t target : ℚ} (h : l.now = t ∨ t < l.now ∧ l.now < target) :
    (l.bare.arrive t).jump target = (l.jump target).bare := by
  rcases h with rfl | ⟨hbefore, hafter⟩
  · exact bare_jump l target
  · unfold jump
    rw [if_pos (show (l.bare.arrive t).now < target from hbefore.trans hafter), if_pos hafter]
    rfl

/-- A step of the loop that waits: the other makes the same step, or a deadline is settled. -/
theorem Waits.runOnce (h : Waits l l') (hn : l.runOnce c = (n, e)) (hv : ¬ Violated e) :
    l'.runOnce c.muted = (n.bare, e) ∨ e = none ∧ Waits n l' ∧
      n.monitors.deadlines.length < l.monitors.deadlines.length := by
  obtain ⟨top, rest, hscheduled, hlive, hclock⟩ := h.timer
  have htidy : l.tidy = l := tidy_idle h.idle hscheduled hlive
  have hother : l'.runOnce c.muted = (l.jump top.time).bare.wake.choose c.muted := by
    have hsettle : l'.settle c.muted = .inr (l'.tidy.jump top.time) := by
      have hready : l'.tidy.agenda.ready = [] := by rw [h.tidied]; exact h.idle
      have hnext : l'.tidy.agenda.scheduled = top :: rest := by rw [h.tidied]; exact hscheduled
      exact settle_jump hready hnext (by rw [h.tidied]; rfl)
    unfold SimLoop.runOnce
    rw [hsettle, h.tidied, arrive_bare_jump hclock]
  have hs := settles c l
  unfold SimLoop.runOnce at hn
  generalize l.settle c = s at hs hn
  cases hs with
  | ready hready =>
    rw [htidy] at hready
    exact absurd h.idle hready
  | deadlock _ hnone =>
    rw [htidy, hscheduled] at hnone
    cases hnone
  | @jump top' rest' _ htop =>
    rw [htidy] at htop hn
    obtain ⟨rfl, rfl⟩ := List.cons.inj (hscheduled.symm.trans htop)
    exact .inl (hother.trans (choose_bare hn hv))
  | @due top' rest' d _ htop hdeadline hdue =>
    rw [htidy] at htop hdeadline hn
    obtain ⟨rfl, rfl⟩ := List.cons.inj (hscheduled.symm.trans htop)
    dsimp only at hn
    obtain ⟨rfl, hbare⟩ := conclude_bare hn hv
    have hraised : (l.monitors.fireDue l.user (max l.now d)).2 = none := by
      have hraised := congrArg Prod.snd hn
      unfold checkDue at hraised
      rw [conclude_raised] at hraised
      exact Option.map_eq_none_iff.mp hraised
    have hmonitors : n.monitors = (l.monitors.fireDue l.user (max l.now d)).1 := by
      have hfst := congrArg (fun turn => turn.1.monitors) hn
      exact (hfst.symm.trans (conclude_monitors _))
    refine .inr ⟨rfl, ?_, ?_⟩
    · refine ⟨(congrArg stopping hbare).symm.trans h.going,
        (congrArg (·.agenda.ready) hbare).symm.trans h.idle, ?_, top, rest,
        (congrArg (·.agenda.scheduled) hbare).symm.trans hscheduled,
        (congrArg (·.agenda.isCancelled top) hbare).symm.trans hlive, ?_⟩
      · rw [h.tidied, ← hbare]
        rfl
      · rw [show n.now = max l.now d from (congrArg (·.agenda.now) hbare).symm]
        rcases le_total d l.now with hle | hge
        · rw [max_eq_left hle]
          exact hclock
        · rw [max_eq_right hge]
          rcases eq_or_lt_of_le hge with rfl | hlt
          · exact hclock
          · have hbehind : l'.now ≤ l.now := hclock.elim (fun heq => heq.ge) fun hlate => hlate.1.le
            exact .inr ⟨hbehind.trans_lt hlt, hdue.resolve_left (not_le.mpr hlt)⟩
    · rw [hmonitors]
      exact MonitorSet.fireDue_fewer hraised (nextDeadline_some hdeadline) (le_max_right _ _)

/-- Where there is nothing to wait for, or no deadline, the two make the same step. -/
theorem runOnce_bare (hn : l.runOnce c = (n, e)) (hv : ¬ Violated e)
    (hlevel : l.tidy.agenda.ready = [] → l.tidy.agenda.scheduled ≠ [] → l.nextDeadline = none) :
    l.bare.runOnce c.muted = (n.bare, e) := by
  have hs := settles c l
  unfold SimLoop.runOnce at hn ⊢
  generalize l.settle c = s at hs hn
  cases hs with
  | ready hready =>
    rw [settle_ready (l := l.bare) hready]
    exact choose_bare hn hv
  | deadlock hready hscheduled =>
    rw [settle_deadlock (l := l.bare) hready hscheduled]
    obtain ⟨rfl, rfl⟩ := Prod.mk.inj hn
    rfl
  | @due top rest d hready hscheduled hdeadline _ =>
    have hnone := hlevel hready (by simp [hscheduled])
    exact nomatch hnone.symm.trans hdeadline
  | @jump top rest hready hscheduled _ =>
    rw [settle_jump (l := l.bare) hready hscheduled rfl,
      show l.bare.tidy.jump top.time = (l.tidy.jump top.time).bare from bare_jump l.tidy top.time]
    exact choose_bare hn hv

/-- A step of the loop with monitors: the other makes the same step, or a deadline is
settled and it does nothing. -/
theorem Shadows.runOnce (h : Shadows l l') (hgoing : l.stopping = false)
    (hn : l.runOnce c = (n, e)) (hv : ¬ Violated e) :
    l'.runOnce c.muted = (n.bare, e) ∨ e = none ∧ Waits n l' ∧
      n.monitors.deadlines.length < l.monitors.deadlines.length := by
  rcases h with rfl | hwaits
  · by_cases hidle : l.tidy.agenda.ready = [] ∧ l.tidy.agenda.scheduled ≠ []
    · obtain ⟨hready, hscheduled⟩ := hidle
      obtain ⟨top, rest, hscheduled⟩ := List.exists_cons_of_ne_nil hscheduled
      have hwaits := waits_tidy hgoing hready hscheduled
      have htidy : l.tidy.tidy = l.tidy := tidy_idle hready hscheduled (tidy_top hscheduled)
      exact hwaits.runOnce (runOnce_tidy htidy ▸ hn) hv
    · exact .inl (runOnce_bare hn hv fun hready hscheduled => absurd ⟨hready, hscheduled⟩ hidle)
  · exact hwaits.runOnce hn hv

theorem Shadows.stopping (h : Shadows l l') : l'.stopping = l.stopping := by
  rcases h with rfl | hwaits
  · rfl
  · have hstopping : l'.tidy.stopping = (l.bare.arrive l'.now).stopping := by rw [hwaits.tidied]
    exact hstopping

/-- The rounds of `run_forever` with monitors, and those without. -/
theorem shadows : Stutter.Simulation (round c) (round c.muted) Shadows
    (fun turn turn' => turn' = (turn.1.bare, turn.2)) (fun turn => Violated turn.2)
    fun l => l.monitors.deadlines.length where
  goes l l' n hrel hround := by
    obtain ⟨hgoing, hn⟩ := (round_goes c).mp hround
    have hgoing' : l'.stopping = false := hrel.stopping.trans hgoing
    rcases hrel.runOnce hgoing hn not_violated_none with hsame | ⟨_, hwaits, hfewer⟩
    · exact .inr ⟨n.bare, (round_goes c.muted).mpr ⟨hgoing', hsame⟩, .inl rfl⟩
    · exact .inl ⟨.inr hwaits, hfewer⟩
  stops l l' turn hrel hround := by
    rcases (round_stops c).mp hround with ⟨hstopping, rfl⟩ | ⟨n, e, hgoing, hn, rfl⟩
    · refine .inr ⟨_, (round_stops c.muted).mpr (.inl ⟨hrel.stopping.trans hstopping, rfl⟩), ?_⟩
      rcases hrel with rfl | hwaits
      · rfl
      · exact nomatch hwaits.going.symm.trans hstopping
    · by_cases hv : Violated (some e)
      · exact .inl hv
      · have hsame := (hrel.runOnce hgoing hn hv).resolve_right fun hnone => nomatch hnone.1
        exact .inr ⟨_, (round_stops c.muted).mpr
          (.inr ⟨_, _, hrel.stopping.trans hgoing, hsame, rfl⟩), rfl⟩

/-! ### Whole runs -/

/-- What `run_until_complete` and `finalize_monitors` make of the end of `run_forever`. -/
def finishMain (result : σ → Option PyException) : Turn R σ J κ → Turn R σ J κ
  | (l, none) =>
    match result l.user with
    | some e => (l, some (.raised e))
    | none => l.finalizeMonitors
  | turn => turn

variable {result : σ → Option PyException} {turn : Turn R σ J κ}

theorem runMain_iff : (∃ fuel, runMain c l result fuel = some turn) ↔
    ∃ left, Stutter.Comes (round c) l left ∧ finishMain result left = turn := by
  have hfinish (fuel : Nat) :
      runMain c l result fuel = (runForever c fuel l).map (finishMain result) := by
    unfold runMain
    cases runForever c fuel l with
    | none => rfl
    | some left =>
      obtain ⟨m, e⟩ := left
      cases e with
      | some e => rfl
      | none =>
        simp only [finishMain, Option.map_some]
        cases result m.user <;> rfl
  constructor
  · rintro ⟨fuel, h⟩
    obtain ⟨left, hleft, hturn⟩ := Option.map_eq_some_iff.mp (hfinish fuel ▸ h)
    exact ⟨left, (runForever_iff c).mp ⟨fuel, hleft⟩, hturn⟩
  · rintro ⟨left, hcomes, rfl⟩
    obtain ⟨fuel, hleft⟩ := (runForever_iff c).mpr hcomes
    exact ⟨fuel, by rw [hfinish, hleft]; rfl⟩

theorem finishMain_bare (hn : finishMain result turn = (n, e)) (hv : ¬ Violated e) :
    finishMain result (turn.1.bare, turn.2) = (n.bare, e) := by
  obtain ⟨m, raised⟩ := turn
  cases raised with
  | some error =>
    obtain ⟨rfl, rfl⟩ := Prod.mk.inj hn
    rfl
  | none =>
    dsimp only [finishMain] at hn ⊢
    rw [show m.bare.user = m.user from rfl]
    cases hresult : result m.user with
    | some error =>
      rw [hresult] at hn
      obtain ⟨rfl, rfl⟩ := Prod.mk.inj hn
      rfl
    | none =>
      rw [hresult] at hn
      dsimp only at hn ⊢
      unfold finalizeMonitors at hn
      split at hn
      · obtain ⟨rfl, rfl⟩ := Prod.mk.inj hn
        rfl
      · obtain ⟨rfl, hbare⟩ := conclude_bare hn hv
        rw [← hbare]
        rfl

/-- Two loops have made the same run so far. -/
structure Agree (l l' : SimLoop R σ J κ) : Prop where
  ran : l'.agenda.ran = l.agenda.ran
  tape : l'.tape = l.tape
  user : l'.user = l.user
  log : l'.log = l.log

theorem Shadows.agree (h : Shadows l l') : Agree l l' := by
  rcases h with rfl | hwaits
  · exact ⟨rfl, rfl, rfl, rfl⟩
  · have hran : l'.tidy.agenda.ran = l'.agenda.ran := by
      unfold tidy Agenda.compact
      split <;> rfl
    have hsame : Agree l.bare l'.tidy := by
      rw [hwaits.tidied]
      exact ⟨rfl, rfl, rfl, rfl⟩
    exact ⟨hran.symm.trans hsame.ran, hsame.tape, hsame.user, hsame.log⟩

/-! ### Teardown -/

/-- The same call, with code that registers no monitor. -/
def Drive.muted : Drive R σ J → Drive R σ J
  | .outside code => .outside (Simloom.muted code)
  | d => d

theorem drainReady_bare (limit : Nat) :
    l.bare.drainReady c.muted limit = ((l.drainReady c limit).1.bare, (l.drainReady c limit).2) ∧
      (l.drainReady c limit).1.monitoringEnabled = l.monitoringEnabled := by
  induction limit generalizing l with
  | zero => exact ⟨rfl, rfl⟩
  | succ limit ih =>
    unfold drainReady
    dsimp only
    rw [show l.bare.agenda = l.agenda from rfl]
    split
    · exact ⟨rfl, rfl⟩
    next first rest _ =>
      rw [show c.muted.scheduler.pick first rest l.bare.scheduler l.bare.tape =
        c.scheduler.pick first rest l.scheduler l.tape from rfl]
      generalize c.scheduler.pick first rest l.scheduler l.tape = picked
      obtain ⟨error | index, scheduler, tape⟩ := picked
      · exact ⟨rfl, rfl⟩
      · dsimp only
        generalize hother : drainStep c.muted _ index (rest.length + 1) _ = other
        generalize hturn : drainStep c _ index (rest.length + 1) _ = turn
        have hstep := hother.symm.trans (bare_drainStep c
          {l with agenda := l.agenda.compact, scheduler := scheduler, tape := tape} index _ _)
        have henabled := (drainStep_performs (c := c) (l := {l with
          agenda := l.agenda.compact, scheduler := scheduler, tape := tape}) index
          (rest.length + 1) ((first :: rest).get index)).enabled
        rw [hturn] at hstep henabled
        rw [hstep]
        obtain ⟨m, raised⟩ := turn
        cases raised with
        | some error => exact ⟨rfl, henabled⟩
        | none =>
          obtain ⟨hsame, hsteady⟩ := ih (l := m.bound)
          exact ⟨hsame, hsteady.trans henabled⟩

/-- With the monitors off a step finds no violation. -/
theorem runOnce_off (hoff : l.monitoringEnabled = false) :
    ¬ Violated (l.runOnce c).2 ∧ (l.runOnce c).1.monitoringEnabled = false := by
  have hw := watches c l
  generalize l.runOnce c = turn at hw
  cases hw with
  | idle hpasses _ hquiet => exact ⟨fun ⟨v, hv⟩ => hquiet v hv, hpasses.enabled.trans hoff⟩
  | due _ _ hdeadline =>
    unfold nextDeadline at hdeadline
    rw [hoff] at hdeadline
    simp at hdeadline
  | @ran m n e hpasses hperforms =>
    have hn : n.monitoringEnabled = false := hperforms.enabled.trans (hpasses.enabled.trans hoff)
    cases e with
    | some e => exact ⟨fun ⟨_, hv⟩ => (nomatch hv), hn⟩
    | none =>
      dsimp only [finishStep]
      rw [if_neg (by simp [hn])]
      exact ⟨not_violated_none, hn⟩

/-- With the monitors off every call is the same without them, but the one that concludes
them. -/
theorem drive_bare (hoff : l.monitoringEnabled = false) {d : Drive R σ J} (hd : d ≠ .finalize) :
    l.bare.drive c.muted d.muted = ((l.drive c d).1.bare, (l.drive c d).2) ∧
      (l.drive c d).1.monitoringEnabled = false := by
  cases d with
  | once =>
    obtain ⟨hquiet, hstill⟩ := runOnce_off (c := c) hoff
    refine ⟨runOnce_bare rfl hquiet fun _ _ => ?_, hstill⟩
    unfold nextDeadline
    rw [hoff]
    simp
  | drain limit =>
    obtain ⟨hsame, hstill⟩ := drainReady_bare (c := c) (l := l) limit
    exact ⟨hsame, hstill.trans hoff⟩
  | outside code =>
    refine ⟨?_, (perform_performs code).enabled.trans hoff⟩
    show ((l.bare.perform c.muted (Simloom.muted code)).1,
      (l.bare.perform c.muted (Simloom.muted code)).2.map LoopError.raised) = _
    rw [bare_perform]
    rfl
  | finalize => exact absurd rfl hd
  | leave | revive => exact ⟨rfl, hoff⟩
  | unmonitor => exact ⟨rfl, rfl⟩

theorem after_bare (hoff : l.monitoringEnabled = false) {ds : List (Drive R σ J)}
    (hds : .finalize ∉ ds) : l.bare.after c.muted (ds.map Drive.muted) = (l.after c ds).bare := by
  induction ds generalizing l with
  | nil => rfl
  | cons d rest ih =>
    obtain ⟨hd, hrest⟩ := not_or.mp fun h => hds (List.mem_cons.mpr h)
    obtain ⟨hsame, hstill⟩ := drive_bare (c := c) hoff (Ne.symm hd)
    have hnext := ih hstill hrest
    show (l.bare.drive c.muted d.muted).1.after c.muted (rest.map Drive.muted) = _
    rw [hsame]
    exact hnext

/-- **Monitors that find nothing perturb nothing.** A run with monitors and the run of the
same program that registers none: one that ends without a violation ends as the other does,
with the same steps, draws and events, and so does the other unless the first ends with a
violation; while they go on they make the same run; and teardown, which switches the monitors
off, does the same to both. -/
theorem zero_perturbation (c : LoopConfig R σ J κ) (epoch : ℚ) (user : σ) (tape : Tape R)
    (scheduler : κ) (prelude : Code R σ J) (result : σ → Option PyException) :
    let l := ((start epoch user tape scheduler).perform c prelude).1
    let l' := ((start epoch user tape scheduler).perform c.muted (Simloom.muted prelude)).1
    (∀ fuel n e, runMain c l result fuel = some (n, e) → ¬ Violated e →
      ∃ fuel', runMain c.muted l' result fuel' = some (n.bare, e)) ∧
    (∀ fuel n' e', runMain c.muted l' result fuel = some (n', e') →
      ∃ fuel' n e, runMain c l result fuel' = some (n, e) ∧
        (Violated e ∨ n' = n.bare ∧ e' = e)) ∧
    (∀ m, Ongoing c l m → ∃ m', Ongoing c.muted l' m' ∧ Agree m m') ∧
    (∀ m', Ongoing c.muted l' m' →
      (∃ fuel n e, runMain c l result fuel = some (n, e) ∧ Violated e) ∨
        ∃ m, Ongoing c l m ∧ Agree m m') ∧
    ∀ (n : SimLoop R σ J κ) (ds : List (Drive R σ J)), .finalize ∉ ds →
      n.bare.after c.muted (.unmonitor :: ds.map Drive.muted) =
        (n.after c (.unmonitor :: ds)).bare := by
  intro l l'
  have hstart : Shadows l l' := .inl (congrArg Prod.fst
    (bare_perform c (start epoch user tape scheduler) prelude))
  have hfailed {turn : Turn R σ J κ} (hv : Violated turn.2) : finishMain result turn = turn := by
    obtain ⟨m, e⟩ := turn
    obtain ⟨v, rfl⟩ := hv
    rfl
  refine ⟨fun fuel n e hrun hv => ?_, fun fuel n' e' hrun => ?_, fun m hm => ?_, fun m' hm' => ?_,
    fun n ds hds => ?_⟩
  · obtain ⟨turn, hcomes, hturn⟩ := runMain_iff.mp ⟨fuel, hrun⟩
    rcases shadows.comes hstart hcomes with hviolated | ⟨turn', hcomes', rfl⟩
    · obtain rfl := (hfailed hviolated).symm.trans hturn
      exact absurd hviolated hv
    · exact runMain_iff.mpr ⟨_, hcomes', finishMain_bare hturn hv⟩
  · obtain ⟨turn', hcomes', hturn'⟩ := runMain_iff.mp ⟨fuel, hrun⟩
    obtain ⟨turn, hcomes, hends⟩ := shadows.comes_back hstart hcomes'
    obtain ⟨fuel', hmain⟩ : ∃ fuel, runMain c l result fuel = some (finishMain result turn) :=
      runMain_iff.mpr ⟨turn, hcomes, rfl⟩
    refine ⟨fuel', _, _, hmain, ?_⟩
    by_cases hv : Violated (finishMain result turn).2
    · exact .inl hv
    · refine .inr ?_
      rcases hends with hviolated | rfl
      · rw [hfailed hviolated] at hv
        exact absurd hviolated hv
      · exact Prod.mk.inj (hturn'.symm.trans (finishMain_bare rfl hv))
  · obtain ⟨m', hvisits, hm'⟩ := shadows.visits hstart hm
    exact ⟨m', hvisits, hm'.agree⟩
  · rcases shadows.visits_back hstart hm' with ⟨turn, hcomes, hviolated⟩ | ⟨m, hvisits, hm⟩
    · obtain ⟨fuel, hmain⟩ : ∃ fuel, runMain c l result fuel = some turn :=
        runMain_iff.mpr ⟨turn, hcomes, hfailed hviolated⟩
      exact .inl ⟨fuel, _, _, hmain, hviolated⟩
    · exact .inr ⟨m, hvisits, hm.agree⟩
  · exact after_bare (l := {n with monitoringEnabled := false}) rfl hds

end SimLoop

end Simloom
