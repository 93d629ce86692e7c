import Simloom.Net.Held
import Simloom.Loop.Agenda

/-! Connects that wait for a partition to heal.

All waiting connects share one `asyncio.Event`. A connect whose link is blocked waits on the
current one, which is made if there is none; a release sets it and drops it, and a connect that
wakes up looks at its link again and may wait again, on a new one. A wake-up is a handle of the
loop: it runs some time later, or never if its task was crashed. `Attached` is why none is lost:
whoever sleeps is on the current event, which is not set, and behind a block. -/
namespace Simloom
open Theory

/-- A connect in `_wait_until_unblocked`, by its task, and the event that it waits on. -/
structure Waiter where
  task : TaskId
  src : String
  dst : String
  event : Nat
deriving DecidableEq

/-- The handle of a waiter whose future is done or, if the task was cancelled, cancelled. -/
structure WakeUp where
  waiter : Waiter
  cancelled : Bool

/-- `healWaiters` is `_heal_waiters`, an index into the events made so far, of which `events` holds
whether they are set. `waiting` are the waiters of all events. -/
structure Healing where
  network : SimNetwork
  healWaiters : Option Nat
  events : List Bool
  waiting : List Waiter
  woken : List WakeUp
  crashed : List TaskId

/-- Either direction is blocked. -/
def SimNetwork.isCut (n : SimNetwork) (src dst : String) : Bool :=
  n.isBlocked src dst || n.isBlocked dst src

namespace Healing

def start (draws : Nat → Fin 64 × Fin 100) : Healing := ⟨.start draws, none, [], [], [], []⟩

/-! ### Waiting and waking -/

/-- The event to wait on. -/
def currentEvent (h : Healing) : Nat × Healing :=
  match h.healWaiters with
  | some event => (event, h)
  | none => (h.events.length,
    {h with healWaiters := some h.events.length, events := h.events ++ [false]})

/-- `_wait_until_unblocked` up to where it suspends or returns. `wait` on an event that is set
returns at once, and the loop would spin for ever. -/
def waitUntilUnblocked (h : Healing) (task : TaskId) (src dst : String) : Option Healing :=
  if h.network.isCut src dst then
    let (event, h) := h.currentEvent
    if h.events.getD event false then none
    else some {h with waiting := h.waiting ++ [⟨task, src, dst, event⟩]}
  else some h

/-- The end of `_release`: set the event and drop it. -/
def wakeAll (h : Healing) : Healing :=
  match h.healWaiters with
  | none => h
  | some event =>
    {h with
      healWaiters := none
      events := h.events.set event true
      waiting := h.waiting.filter (·.event ≠ event)
      woken := h.woken ++ (h.waiting.filter (·.event = event)).map fun w => ⟨w, false⟩}

/-- `task.cancel()`. -/
def cancel (h : Healing) (task : TaskId) : Healing :=
  {h with
    waiting := h.waiting.filter (·.task ≠ task)
    woken := (h.woken.map fun x => if x.waiter.task = task then {x with cancelled := true} else x) ++
      (h.waiting.filter (·.task = task)).map fun w => ⟨w, true⟩}

/-- The loop runs a wake-up, and the connect looks at its link again or is cancelled. -/
def wake (h : Healing) (x : WakeUp) (rest : List WakeUp) : Option Healing :=
  if x.cancelled then some {h with woken := rest}
  else {h with woken := rest}.waitUntilUnblocked x.waiter.task x.waiter.src x.waiter.dst

/-! ### Steps -/

/-- A step of the network; a connect of a task, which has found a listener; the wake-up at a place
in the loop's queue; a cancellation; a crash of tasks. -/
inductive Event where
  | network (event : SimNetwork.Event)
  | connect (task : TaskId) (src dst : String)
  | wake (index : Nat)
  | cancel (task : TaskId)
  | crashTasks (tasks : List TaskId)

def step (h : Healing) : Event → Option Healing
  | .network event => (h.network.step event).map fun n =>
    if event.releases then wakeAll {h with network := n} else {h with network := n}
  | .connect task src dst =>
    if h.network.activity = .idle then h.waitUntilUnblocked task src dst else none
  | .wake index => match h.woken[index]? with
    | none => none
    | some x =>
      if h.network.activity = .idle ∧ x.waiter.task ∉ h.crashed then h.wake x (h.woken.eraseIdx index)
      else none
  | .cancel task => if h.network.activity.inProgram then some (h.cancel task) else none
  | .crashTasks tasks =>
    if h.network.activity.inProgram then some {h with crashed := h.crashed ++ tasks} else none

/-- A connect that has not come out of its wait. -/
def Waits (h : Healing) (w : Waiter) : Prop := w ∈ h.waiting ∨ ∃ x ∈ h.woken, x.waiter = w

/-- No callback is left that may run. -/
structure Quiet (h : Healing) : Prop where
  idle : h.network.activity = .idle
  ready : h.network.ready = []
  woken : ∀ x ∈ h.woken, x.waiter.task ∈ h.crashed

/-! ### The invariant -/

/-- Whoever sleeps is on the current event, which is not set, and its link is blocked. -/
structure Attached (h : Healing) : Prop where
  wellFormed : h.network.WellFormed
  backed : h.network.Backed
  unset : ∀ event, h.healWaiters = some event → h.events[event]? = some false
  current : ∀ w ∈ h.waiting, h.healWaiters = some w.event
  cut : ∀ w ∈ h.waiting, h.network.isCut w.src w.dst = true

variable {h h' : Healing}

theorem attached_start (draws : Nat → Fin 64 × Fin 100) : (start draws).Attached :=
  ⟨SimNetwork.wellFormed_start draws, SimNetwork.backed_start draws, nofun, nofun, nofun⟩

theorem isCut_mono {n n' : SimNetwork} (hb : ∀ link ∈ n.blocked, link ∈ n'.blocked) {src dst : String}
    (hcut : n.isCut src dst = true) : n'.isCut src dst = true := by
  simp only [SimNetwork.isCut, SimNetwork.isBlocked, Bool.or_eq_true, decide_eq_true_eq] at hcut ⊢
  exact hcut.imp (hb _) (hb _)

theorem Attached.mono (ha : h.Attached) {n : SimNetwork} (hw : n.WellFormed) (hb : n.Backed)
    (hblocked : ∀ link ∈ h.network.blocked, link ∈ n.blocked) :
    Attached {h with network := n} :=
  ⟨hw, hb, ha.unset, ha.current, fun w hin => isCut_mono hblocked (ha.cut w hin)⟩

/-- A look at the link always comes to an end: the current event is never set. -/
theorem wait_attached (ha : h.Attached) (task : TaskId) (src dst : String) :
    ∃ h', h.waitUntilUnblocked task src dst = some h' ∧ h'.Attached := by
  unfold waitUntilUnblocked currentEvent
  split
  next hcut =>
    cases hcurrent : h.healWaiters with
    | some event =>
      have hunset : h.events.getD event false = false := by
        rw [List.getD_eq_getElem?_getD, ha.unset event hcurrent]
        rfl
      refine ⟨_, if_neg (Bool.eq_false_iff.mp hunset), ha.wellFormed, ha.backed, ha.unset, fun w hin => ?_,
        fun w hin => ?_⟩
      · rcases List.mem_append.mp hin with hold | hnew
        · exact ha.current w hold
        · rw [List.mem_singleton.mp hnew]
          exact hcurrent
      · rcases List.mem_append.mp hin with hold | hnew
        · exact ha.cut w hold
        · rw [List.mem_singleton.mp hnew]
          exact hcut
    | none =>
      have hnobody (w : Waiter) : w ∉ h.waiting := fun hin => by
        have hsome := ha.current w hin
        rw [hcurrent] at hsome
        cases hsome
      refine ⟨_, if_neg (by simp [List.getD_eq_getElem?_getD]), ha.wellFormed, ha.backed,
        fun event hevent => ?_, fun w hin => ?_, fun w hin => ?_⟩
      · rw [← Option.some.inj hevent]
        exact List.getElem?_concat_length
      · rw [List.mem_singleton.mp ((List.mem_append.mp hin).resolve_left (hnobody w))]
      · rw [List.mem_singleton.mp ((List.mem_append.mp hin).resolve_left (hnobody w))]
        exact hcut
  next => exact ⟨h, rfl, ha⟩

/-- After a release nobody sleeps. -/
theorem wakeAll_attached {h : Healing} (hw : h.network.WellFormed) (hb : h.network.Backed)
    (hcurrent : ∀ w ∈ h.waiting, h.healWaiters = some w.event) : h.wakeAll.Attached := by
  unfold wakeAll
  split
  next hnone =>
    have hnobody (w : Waiter) (hin : w ∈ h.waiting) : False := by
      have hsome := hcurrent w hin
      rw [hnone] at hsome
      cases hsome
    have hnothing (event : Nat) (he : h.healWaiters = some event) : False := by
      rw [hnone] at he
      cases he
    exact ⟨hw, hb, fun event he => (hnothing event he).elim, fun w hin => (hnobody w hin).elim,
      fun w hin => (hnobody w hin).elim⟩
  next event hsome =>
    have hnobody (w : Waiter) (hin : w ∈ h.waiting.filter (·.event ≠ event)) : False := by
      obtain ⟨hin, hne⟩ := List.mem_filter.mp hin
      have heq := Option.some.inj (hsome.symm.trans (hcurrent w hin))
      simp [heq] at hne
    exact ⟨hw, hb, nofun, fun w hin => (hnobody w hin).elim, fun w hin => (hnobody w hin).elim⟩

theorem Attached.fewer (ha : h.Attached) {waiting : List Waiter} {woken : List WakeUp}
    (hfewer : ∀ w ∈ waiting, w ∈ h.waiting) :
    Attached {h with waiting := waiting, woken := woken} :=
  ⟨ha.wellFormed, ha.backed, ha.unset, fun w hin => ha.current w (hfewer w hin),
    fun w hin => ha.cut w (hfewer w hin)⟩

/-- **No step detaches anyone.** -/
theorem keeps_attached (P : Healing → Event → Prop) : Transition.Keeps step P Attached := by
  intro h e h' _ ha hs
  cases e with
  | network event =>
    obtain ⟨n, hn, rfl⟩ := Option.map_eq_some_iff.mp hs
    have hw := SimNetwork.keeps_wellFormed (fun _ _ => True) _ _ _ trivial ha.wellFormed hn
    have hb := SimNetwork.step_backed ha.wellFormed ha.backed hn
    split
    next => exact wakeAll_attached (h := {h with network := n}) hw hb ha.current
    next hnot =>
      have hkept := SimNetwork.step_kept ha.wellFormed hn (Bool.eq_false_iff.mpr hnot)
      exact ha.mono hw hb hkept.blocked
  | connect task src dst =>
    obtain ⟨_, hs⟩ := Option.ite_none_right_eq_some.mp hs
    obtain ⟨m, hm, hma⟩ := wait_attached ha task src dst
    exact Option.some.inj (hm.symm.trans hs) ▸ hma
  | wake index =>
    simp only [step] at hs
    split at hs
    · cases hs
    next x hx =>
      obtain ⟨_, hs⟩ := Option.ite_none_right_eq_some.mp hs
      have hrest : Attached {h with woken := h.woken.eraseIdx index} := ha.fewer fun _ hin => hin
      unfold wake at hs
      split at hs
      · exact Option.some.inj hs ▸ hrest
      · obtain ⟨m, hm, hma⟩ := wait_attached hrest x.waiter.task x.waiter.src x.waiter.dst
        exact Option.some.inj (hm.symm.trans hs) ▸ hma
  | cancel task =>
    obtain ⟨_, hs⟩ := Option.ite_none_right_eq_some.mp hs
    exact Option.some.inj hs ▸ ha.fewer fun _ hin => (List.mem_filter.mp hin).1
  | crashTasks tasks =>
    obtain ⟨_, hs⟩ := Option.ite_none_right_eq_some.mp hs
    exact Option.some.inj hs ▸ ⟨ha.wellFormed, ha.backed, ha.unset, ha.current, ha.cut⟩

theorem run_attached {draws : Nat → Fin 64 × Fin 100} {events : List Event}
    (hrun : Transition.run step (start draws) events = some h) : h.Attached :=
  (keeps_attached fun _ _ => True).run (Transition.along_of_forall (fun _ _ _ => trivial) _)
    (attached_start draws) hrun

/-- A wake-up of a task that is not crashed can run. -/
theorem wake_runs (ha : h.Attached) (hidle : h.network.activity = .idle) {index : Nat} {x : WakeUp}
    (hx : h.woken[index]? = some x) (hup : x.waiter.task ∉ h.crashed) :
    (h.step (.wake index)).isSome = true := by
  simp only [step, hx]
  rw [if_pos ⟨hidle, hup⟩]
  unfold wake
  split
  · rfl
  · have hrest : Attached {h with woken := h.woken.eraseIdx index} := ha.fewer fun _ hin => hin
    obtain ⟨m, hm, _⟩ := wait_attached hrest x.waiter.task x.waiter.src x.waiter.dst
    rw [hm]
    rfl

/-- **Healing strands nobody.** Once no callback is left that may run, whatever a live endpoint
holds is behind a block, and so is every connect that waits for a task that was not crashed. -/
theorem healing_strands_nobody (draws : Nat → Fin 64 × Fin 100) (events : List Event)
    (hrun : Transition.run step (start draws) events = some h) (hquiet : h.Quiet) :
    (∀ e ∈ h.network.live, (h.network.transport e).held ≠ [] → h.network.isBlockedFrom e = true) ∧
    ∀ w, h.Waits w → w.task ∉ h.crashed →
      h.network.isBlocked w.src w.dst = true ∨ h.network.isBlocked w.dst w.src = true := by
  have ha := run_attached hrun
  refine ⟨ha.backed.held, fun w hwaits hup => ?_⟩
  rcases hwaits with hsleeps | ⟨x, hx, rfl⟩
  · exact Bool.or_eq_true_iff.mp (ha.cut w hsleeps)
  · exact absurd (hquiet.woken x hx) hup

/-- Two connects across two partitions, and a chunk that is held; one of the partitions heals,
and both connects wake up. -/
def partlyHealed : List Event :=
  [.network (.connect "a" "c" ⟨0, false⟩ ⟨1, false⟩), .network (.partition ["a"] ["b", "c"]),
    .network (.write ⟨0, false⟩ [1]), .connect 0 "a" "b", .connect 1 "a" "c",
    .network (.unblock "a" "b"), .network (.unblock "b" "a"), .wake 0, .wake 0]

theorem healing_strands_nobody_partly :
    ∃ h, Transition.run step (start fun _ => (0, 0)) partlyHealed = some h ∧
      h.waiting = [⟨1, "a", "c", 1⟩] ∧ (h.network.transport ⟨0, false⟩).held = [.data [1]] ∧
      (∀ e ∈ h.network.live, (h.network.transport e).held ≠ [] → h.network.isBlockedFrom e = true) ∧
      ∀ w, h.Waits w → w.task ∉ h.crashed →
        h.network.isBlocked w.src w.dst = true ∨ h.network.isBlocked w.dst w.src = true := by
  have hrun : Transition.run step (start fun _ => (0, 0)) partlyHealed = some _ := rfl
  exact ⟨_, hrun, by decide, by decide,
    healing_strands_nobody (fun _ => (0, 0)) partlyHealed hrun ⟨by decide, by decide, by decide⟩⟩

end Healing

end Simloom
