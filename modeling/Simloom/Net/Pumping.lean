import Simloom.Net.Reading
import Simloom.Net.Streams

/-! Whether the pump can stall.

A pump is queued exactly when it is marked as scheduled, and an endpoint that can be
read and has something in its inbox has its pump scheduled or running (`Pumping`). A
pump that is left because the inbox is empty, or reading has stopped, keeps this. One
that is left by an exception keeps it only where it leaves nothing to do
(`LeavesNothing`): the mark was cleared when the pump began. -/
namespace Simloom
open Theory

namespace SimTransport

/-- Nothing waits for a pump. -/
def Settled (t : SimTransport) : Prop :=
  t.inbox = [] ∨ t.paused = true ∨ t.closed = true ∨ t.pumpScheduled = true

instance (t : SimTransport) : Decidable t.Settled :=
  inferInstanceAs (Decidable (t.inbox = [] ∨ t.paused = true ∨ t.closed = true ∨
    t.pumpScheduled = true))

/-- What closes an endpoint, or leaves its intake alone, settles what was settled. -/
theorem Settled.eases {t u : SimTransport} (h : t.Settled) (hu : u.intake = t.intake)
    (hc : t.closed = true → u.closed = true) : u.Settled := by
  obtain ⟨hi, hp, hs, _⟩ := SimTransport.intake_eq hu
  unfold Settled
  rw [hi, hp, hs]
  exact h.imp_right (Or.imp_right (Or.imp_left hc))

end SimTransport

namespace SimNetwork
variable {n n' : SimNetwork} {e x : EndId}

/-- Between two steps of the loop, whatever can be delivered has its pump queued. -/
def Unstalled (n : SimNetwork) : Prop :=
  n.activity = .idle → ∀ e, (n.transport e).closed = false → (n.transport e).paused = false →
    (n.transport e).inbox ≠ [] → .pump e ∈ n.ready

/-- A pump that an exception ends leaves nothing that waits for it: its call on the
protocol raises, or `get_buffer` returns an empty buffer. -/
def LeavesNothing (n : SimNetwork) : Event → Prop
  | .raised => match n.activity with
    | .receiving e _ | .ending e _ | .buffering e _ _ | .updating e _ _ => (n.transport e).Settled
    | _ => True
  | .bufferReturned size => match n.activity with
    | .buffering e _ view => min size view.length = 0 → (n.transport e).Settled
    | _ => True
  | _ => True

/-! ### The invariant -/

structure Pumping (n : SimNetwork) : Prop where
  queued : ∀ e, n.ready.count (.pump e) = if (n.transport e).pumpScheduled then 1 else 0
  settled : ∀ e, (n.transport e).Settled ∨ n.activity.at = some e

theorem pumping_start (draws : Nat → Fin 64 × Fin 100) : (start draws).Pumping :=
  ⟨fun _ => rfl, fun _ => .inl (.inl rfl)⟩

theorem Pumping.unstalled (h : n.Pumping) : n.Unstalled := by
  intro hidle e hopen hpaused hinbox
  have hsettled := (h.settled e).resolve_right (by rw [hidle]; simp [Activity.at])
  have hscheduled : (n.transport e).pumpScheduled = true := by
    rcases hsettled with hi | hp | hc | hs
    · exact absurd hi hinbox
    · rw [hpaused] at hp; cases hp
    · rw [hopen] at hc; cases hc
    · exact hs
  apply List.count_pos_iff.mp
  rw [h.queued e, hscheduled]
  decide

namespace Pumping

theorem eases (h : n.Pumping) (hn : Eases n n') : n'.Pumping := by
  refine ⟨fun e => ?_, fun e => ?_⟩
  · rw [hn.pumps, (SimTransport.intake_eq (hn.intake e)).2.2.1]
    exact h.queued e
  · rw [hn.activity]
    exact (h.settled e).imp_left fun hs => hs.eases (hn.intake e) (hn.closed e)

/-- One endpoint changes, and is settled after it. -/
theorem modify (h : n.Pumping) (x : EndId) {f : SimTransport → SimTransport}
    (hmark : (f (n.transport x)).pumpScheduled = (n.transport x).pumpScheduled)
    (hs : (f (n.transport x)).Settled ∨ n.activity.at = some x) : (n.modify x f).Pumping := by
  refine ⟨fun e => ?_, fun e => ?_⟩
  · by_cases he : e = x
    · rw [he, modify_self, hmark]
      exact h.queued x
    · rw [modify_of_ne he]
      exact h.queued e
  · by_cases he : e = x
    · rw [he, modify_self]
      exact hs
    · rw [modify_of_ne he]
      exact h.settled e

/-- The pump goes on, or another call begins. -/
theorem moved (h : n.Pumping) {a : Activity} (ha : a.at = n.activity.at) :
    Pumping {n with activity := a} :=
  ⟨h.queued, fun e => (h.settled e).imp_right fun he => ha.trans he⟩

/-- The pump is left. -/
theorem left (h : n.Pumping) (hx : n.activity.at = some x) (hs : (n.transport x).Settled) :
    Pumping {n with activity := .idle} := by
  refine ⟨h.queued, fun e => .inl ?_⟩
  rcases h.settled e with he | he
  · exact he
  · rw [hx] at he
    exact Option.some.inj he ▸ hs

/-- Whatever an endpoint has got, scheduling its pump settles it. -/
theorem schedulePump (hqueued : ∀ e, n.ready.count (.pump e) =
    if (n.transport e).pumpScheduled then 1 else 0)
    (hsettled : ∀ e, e ≠ x → (n.transport e).Settled ∨ n.activity.at = some e) :
    (n.schedulePump x).Pumping := by
  unfold SimNetwork.schedulePump
  split
  next hmark =>
    refine ⟨fun e => ?_, fun e => ?_⟩
    · show (n.ready ++ [Callback.pump x]).count (.pump e) = _
      rw [List.count_append, hqueued]
      by_cases he : e = x
      · subst he
        simp [hmark.1, SimNetwork.callSoon, modify_self]
      · have hne : Callback.pump x ≠ .pump e := fun hc => he (Callback.pump.inj hc).symm
        simp [SimNetwork.callSoon, modify_of_ne he, hne]
    · by_cases he : e = x
      · subst he
        refine .inl (.inr (.inr (.inr ?_)))
        simp [SimNetwork.callSoon, modify_self]
      · simp only [SimNetwork.callSoon, modify_of_ne he]
        exact hsettled e he
  next hmark =>
    refine ⟨hqueued, fun e => ?_⟩
    by_cases he : e = x
    · subst he
      refine .inl (.inr (.inr ?_))
      by_cases hc : (n.transport e).closed = true
      · exact .inl hc
      · exact .inr (by
          by_contra hs
          exact hmark ⟨by simpa using hs, by simpa using hc⟩)
    · exact hsettled e he

/-- An endpoint gets something new to read, and its pump is scheduled. -/
theorem scheduleAfter (h : n.Pumping) (x : EndId) {f : SimTransport → SimTransport}
    (hmark : ∀ t, (f t).pumpScheduled = t.pumpScheduled) :
    ((n.modify x f).schedulePump x).Pumping := by
  refine schedulePump (fun e => ?_) fun e he => ?_
  · rw [modify_kept SimTransport.pumpScheduled n x hmark]
    exact h.queued e
  · rw [modify_of_ne he]
    exact h.settled e

theorem arrive (h : n.Pumping) (x : EndId) : (n.arrive x).Pumping := by
  unfold SimNetwork.arrive
  split
  · exact h
  · dsimp only
    split
    · exact schedulePump h.queued fun e _ => h.settled e
    · exact h.scheduleAfter x fun _ => rfl

/-- The pump leaves the queue, its mark is cleared, and it runs. -/
theorem pump (h : n.Pumping) (hidle : n.activity = .idle) (hmem : .pump x ∈ n.ready) :
    (pump {n with ready := n.ready.erase (.pump x)} x).Pumping := by
  have hsettled (e : EndId) : (n.transport e).Settled :=
    (h.settled e).resolve_right (by rw [hidle]; simp [Activity.at])
  refine ⟨fun e => ?_, fun e => ?_⟩
  · show (n.ready.erase (.pump x)).count (.pump e) = _
    by_cases he : e = x
    · subst he
      have hpos := List.count_pos_iff.mpr hmem
      have hq := h.queued e
      rw [List.count_erase_self]
      simp only [SimNetwork.pump, modify_self]
      split at hq <;> simp_all
    · have hne : Callback.pump e ≠ .pump x := fun hc => he (Callback.pump.inj hc)
      rw [List.count_erase_of_ne hne, h.queued]
      simp only [SimNetwork.pump, modify_of_ne he]
  · by_cases he : e = x
    · exact .inr (by rw [he]; rfl)
    · refine .inl ?_
      simp only [SimNetwork.pump, modify_of_ne he]
      exact hsettled e

/-- The head of the pump's loop leaves it only where nothing waits. -/
theorem turn (h : n.Pumping) (hx : n.activity.at = some x) (p : Protocol) :
    (n.turn x p).Pumping := by
  unfold SimNetwork.turn
  split
  next hi => exact h.left hx (.inl hi)
  next item rest _ =>
    split
    · have hpop := h.modify x (f := fun t => {t with inbox := rest, popped := t.popped ++ [item]})
        rfl (.inr hx)
      dsimp only
      split
      · exact (hpop.modify x (f := fun t => t.call p .eofReceived) rfl (.inr hx)).moved hx.symm
      · exact hpop.moved hx.symm
      next data _ _ =>
        exact (hpop.modify x (f := fun t => t.call p (.dataReceived data)) rfl (.inr hx)).moved hx.symm
    next hstop =>
      refine h.left hx (.inr ?_)
      by_cases hp : (n.transport x).paused = true
      · exact .inl hp
      · refine .inr (.inl ?_)
        by_contra hc
        exact hstop ⟨by simpa using hp, by simpa using hc⟩

theorem fill (h : n.Pumping) (hx : n.activity.at = some x) (p : Protocol) (view : List UInt8) :
    (n.fill x p view).Pumping := by
  unfold SimNetwork.fill
  split
  · exact (h.modify x (f := fun t => t.call p (.getBuffer view.length)) rfl (.inr hx)).moved hx.symm
  · exact h.moved hx.symm

theorem buffer (h : n.Pumping) (hx : n.activity.at = some x) (p : Protocol) (view : List UInt8)
    (size : Nat) (hs : min size view.length = 0 → (n.transport x).Settled) :
    (n.buffer x p view size).Pumping := by
  unfold SimNetwork.buffer
  dsimp only
  split
  · exact (h.modify x (f := fun t => t.call p (.bufferUpdated (view.take (min size view.length))))
      rfl (.inr hx)).moved hx.symm
  next hzero => exact h.left hx (hs (Nat.eq_zero_of_not_pos hzero))

theorem eofReturned (h : n.Pumping) (hx : n.activity.at = some x) (p : Protocol) (keepOpen : Bool) :
    (n.eofReturned x p keepOpen).Pumping := by
  unfold SimNetwork.eofReturned
  cases keepOpen with
  | true => exact h.moved hx.symm
  | false =>
    have hclose := Eases.close n x
    exact (h.eases hclose).moved (hclose.activity ▸ hx.symm)

end Pumping

/-! ### Runs -/

/-- **A step that leaves nothing behind keeps the pumps going.** -/
theorem keeps_pumping : Transition.Keeps step LeavesNothing fun n => n.WellFormed ∧ n.Pumping := by
  rintro n ev n' hleaves ⟨hw, h⟩ hs
  refine ⟨keeps_wellFormed LeavesNothing n ev n' hleaves hw hs, ?_⟩
  by_cases hev : ev.aside = true
  · exact h.eases (step_eases hw hs hev)
  cases ev with
  | pauseReading e =>
    obtain ⟨_, _, rfl⟩ := callOn_some hs
    exact h.modify e rfl (.inl (.inr (.inl rfl)))
  | resumeReading e =>
    obtain ⟨_, _, rfl⟩ := callOn_some hs
    exact h.scheduleAfter e fun _ => rfl
  | timer t cb =>
    obtain ⟨⟨_, hmem, _⟩, hs⟩ := Option.ite_none_right_eq_some.mp hs
    obtain ⟨e, rfl, _⟩ := hw.timers _ hmem
    have htaken : Pumping {n with timers := n.timers.erase (t, .arrive e)} := ⟨h.queued, h.settled⟩
    exact Option.some.inj hs ▸ htaken.arrive e
  | ready cb =>
    obtain ⟨⟨hidle, hmem⟩, hs⟩ := Option.ite_none_right_eq_some.mp hs
    rw [← Option.some.inj hs]
    cases cb with
    | pump e => exact h.pump hidle hmem
    | _ => exact absurd rfl hev
  | advance =>
    simp only [step, SimNetwork.advance] at hs
    split at hs
    next e p ha => exact Option.some.inj hs ▸ h.turn (by rw [ha]; rfl) p
    next e p view ha => exact Option.some.inj hs ▸ h.fill (by rw [ha]; rfl) p view
    next => cases hs
  | returned =>
    simp only [step, SimNetwork.returned] at hs
    split at hs
    next e p ha => exact Option.some.inj hs ▸ h.moved (by rw [ha]; rfl)
    next e p view ha => exact Option.some.inj hs ▸ h.moved (by rw [ha]; rfl)
    next => cases hs
  | eofReturned keepOpen =>
    simp only [step] at hs
    split at hs
    next e p ha => exact Option.some.inj hs ▸ h.eofReturned (by rw [ha]; rfl) p keepOpen
    next => cases hs
  | bufferReturned size =>
    simp only [step] at hs
    split at hs
    next e p view ha =>
      have hzero : min size view.length = 0 → (n.transport e).Settled := by
        simpa only [LeavesNothing, ha] using hleaves
      exact Option.some.inj hs ▸ h.buffer (by rw [ha]; rfl) p view size hzero
    next => cases hs
  | raised =>
    simp only [step, SimNetwork.raised] at hs
    split at hs
    all_goals first
      | cases hs; done
      | rename_i ha
        simp only [LeavesNothing, ha] at hleaves
        exact Option.some.inj hs ▸ h.left (by rw [ha]; rfl) hleaves
  | _ => exact absurd rfl hev

/-- A pump that an exception ends with something left stalls: nothing is queued for it. -/
theorem stalls {ev : Event} (h : n.Pumping) (hleft : ¬n.LeavesNothing ev) :
    ∃ n', n.step ev = some n' ∧ ¬n'.Unstalled := by
  have hstall {e : EndId} (hunsettled : ¬(n.transport e).Settled) :
      ¬Unstalled {n with activity := .idle} := by
    simp only [SimTransport.Settled, not_or, Bool.not_eq_true] at hunsettled
    obtain ⟨hinbox, hpaused, hopen, hmark⟩ := hunsettled
    intro hu
    have hmem : .pump e ∈ n.ready := hu rfl e hopen hpaused hinbox
    have hcount := h.queued e
    rw [hmark] at hcount
    exact absurd (List.count_pos_iff.mpr hmem) (by rw [hcount]; decide)
  cases ev with
  | raised =>
    refine ⟨{n with activity := .idle}, ?_, ?_⟩
    · simp only [step, SimNetwork.raised]
      split <;> simp_all [LeavesNothing]
    · simp only [LeavesNothing] at hleft
      split at hleft
      all_goals first
        | exact hstall hleft
        | exact absurd trivial hleft
  | bufferReturned size =>
    simp only [LeavesNothing] at hleft
    split at hleft
    next e p view ha =>
      rw [Classical.not_imp] at hleft
      refine ⟨{n with activity := .idle}, ?_, hstall hleft.2⟩
      simp only [step, ha, SimNetwork.buffer, hleft.1]
      rfl
    next => exact absurd trivial hleft
  | _ => exact absurd trivial hleft

/-- In every state of the run, whatever can be delivered has its pump queued. -/
def StallFree (n : SimNetwork) (events : List Event) : Prop :=
  ∀ before later m, events = before ++ later → Transition.run step n before = some m → m.Unstalled

theorem stallFree_iff {events : List Event} (hw : n.WellFormed) (h : n.Pumping) :
    n.StallFree events ↔ Transition.Along step LeavesNothing n events := by
  constructor
  · intro hfree
    induction events generalizing n with
    | nil => trivial
    | cons ev rest ih =>
      have hleaves : n.LeavesNothing ev := by
        by_contra hleft
        obtain ⟨n', hs, hstalled⟩ := stalls h hleft
        exact hstalled (hfree [ev] rest n' rfl (Transition.run_cons.mpr ⟨n', hs, rfl⟩))
      refine ⟨hleaves, fun n' hs => ?_⟩
      obtain ⟨hw', h'⟩ := keeps_pumping n ev n' hleaves ⟨hw, h⟩ hs
      refine ih hw' h' fun before later m hrest hm => ?_
      exact hfree (ev :: before) later m (by rw [hrest, List.cons_append])
        (Transition.run_cons.mpr ⟨n', hs, hm⟩)
  · rintro hleaves before later m rfl hm
    exact (keeps_pumping.run hleaves.before ⟨hw, h⟩ hm).2.unstalled

/-- **No transport stalls in a run exactly when no exception ends a pump with something
left for it**: that the endpoint is neither closed nor paused, its inbox is not empty, and
no pump was scheduled since this one began. -/
theorem pump_stalls_iff (draws : Nat → Fin 64 × Fin 100) (events : List Event) :
    (start draws).StallFree events ↔ Transition.Along step LeavesNothing (start draws) events :=
  stallFree_iff (wellFormed_start draws) (pumping_start draws)

/-- Two chunks arrive before the pump runs, and the first `data_received` raises. -/
def raisedBetween : List Event :=
  [.connect "a" "b" ⟨1, false⟩ ⟨2, false⟩, .write firstClient [1], .write firstClient [2], .tick 1,
    .timer (1 / 2000) (.arrive firstServer), .timer (1 / 2000) (.arrive firstServer),
    .ready (.pump firstServer), .advance, .raised]

/-- The second chunk waits in the inbox of an open endpoint that reads, and nothing is
left to run. -/
theorem exception_stalls : ¬∀ (draws : Nat → Fin 64 × Fin 100) (events : List Event),
    (start draws).StallFree events := by
  intro hall
  obtain ⟨n, hn, hend⟩ := Option.map_eq_some_iff.mp (by decide +kernel :
    (Transition.run step (start fun _ => (0, 0)) raisedBetween).map
      (fun n => (n.ready, n.activity, (n.transport firstServer).closed,
        (n.transport firstServer).paused, (n.transport firstServer).inbox)) =
      some ([], .idle, false, false, [.data [2]]))
  simp only [Prod.mk.injEq] at hend
  have hqueued := hall _ raisedBetween raisedBetween [] n (by simp) hn hend.2.1 firstServer
    hend.2.2.1 hend.2.2.2.1 (by rw [hend.2.2.2.2]; simp)
  rw [hend.1] at hqueued
  cases hqueued

end SimNetwork
end Simloom
