import Simloom.Net.Pumping
import Simloom.Net.Callbacks

/-! What the pump hands over, when, and to whom.

A pump looks its protocol up once and then empties the whole inbox; a chunk may take a
buffered protocol several calls. Any of these calls may close the transport, pause it or
switch its protocol. `handing` is where the pump is about to make such a call, and
`step_hands` says that no other step hands anything over. What the protocol has asked
for is watched beside the network: whether `close` was called, and whether the protocol
was switched since the pump that is running began. -/
namespace Simloom
open Theory

/-- The running pump and the protocol that it looked up. -/
def Activity.pump : Activity → Option (EndId × Protocol)
  | .idle => none
  | .draining e p | .receiving e p | .ending e p | .filling e p _ | .buffering e p _
  | .updating e p _ => some (e, p)

namespace SimNetwork
variable {n n' : SimNetwork} {e x : EndId}

/-- Where the pump goes on to a call that hands something over: to take the next item, to
ask for a buffer, or to say that it was filled. -/
def handing (n : SimNetwork) : Event → Option (EndId × Protocol)
  | .advance => match n.activity with
    | .draining e p => match (n.transport e).inbox with
      | [] => none
      | item :: _ =>
        if (n.transport e).paused = false ∧ (n.transport e).closed = false ∧
            (item = .eof ∨ p.buffered = false) then some (e, p)
        else none
    | .filling e p view =>
      if view ≠ [] ∧ (n.transport e).closed = false then some (e, p) else none
    | _ => none
  | .bufferReturned size => match n.activity with
    | .buffering e p view => if 0 < min size view.length then some (e, p) else none
    | _ => none
  | _ => none

/-- One call hands something over, to the endpoint and the protocol of `target`; without
a target none does. -/
def Hands (target : Option (EndId × Protocol)) (n n' : SimNetwork) : Prop :=
  ∀ e, (∃ p c, target = some (e, p) ∧ c.reading = true ∧
      (n'.transport e).calls = (n.transport e).calls ++ [(p, c)]) ∨
    (∀ p, target ≠ some (e, p)) ∧ (n'.transport e).reads = (n.transport e).reads

theorem Hands.nothing (h : ∀ e, (n'.transport e).reads = (n.transport e).reads) :
    Hands none n n' := fun e => .inr ⟨by simp, h e⟩

/-- A call on `x`, with nothing else called. -/
theorem Hands.call {p : Protocol} {c : Call} (hc : c.reading = true)
    (hx : (n'.transport x).calls = (n.transport x).calls ++ [(p, c)])
    (hother : ∀ e, e ≠ x → n'.transport e = n.transport e) : Hands (some (x, p)) n n' := by
  intro e
  by_cases he : e = x
  · subst he
    exact .inl ⟨p, c, rfl, hc, hx⟩
  · refine .inr ⟨fun q hq => he (Prod.mk.inj (Option.some.inj hq)).1.symm, ?_⟩
    rw [hother e he]

theorem Eases.hands (h : Eases n n') : Hands none n n' :=
  .nothing fun e => (SimTransport.intake_eq (h.intake e)).2.2.2

theorem reads_modify (n : SimNetwork) (x : EndId) {f : SimTransport → SimTransport}
    (hf : ∀ t, (f t).calls = t.calls) (e : EndId) :
    ((n.modify x f).transport e).reads = (n.transport e).reads :=
  modify_kept SimTransport.reads n x (fun t => congrArg (List.filter _) (hf t)) e

theorem reads_schedulePump (n : SimNetwork) (x e : EndId) :
    ((n.schedulePump x).transport e).reads = (n.transport e).reads := by
  unfold schedulePump
  split
  · exact reads_modify n x (f := fun t => {t with pumpScheduled := true}) (fun _ => rfl) e
  · rfl

theorem reads_arrive (n : SimNetwork) (x e : EndId) :
    ((n.arrive x).transport e).reads = (n.transport e).reads := by
  unfold arrive
  split
  · rfl
  · dsimp only
    rw [reads_schedulePump]
    split
    · rfl
    next item rest _ =>
      exact reads_modify n x (f := fun t =>
        {t with pending := rest, inbox := t.inbox ++ [item], entered := t.entered ++ [n.now]})
        (fun _ => rfl) e

theorem turn_hands {p : Protocol} (ha : n.activity = .draining x p) :
    Hands (n.handing .advance) n (n.turn x p) := by
  simp only [handing, ha]
  unfold turn
  cases hi : (n.transport x).inbox with
  | nil => exact .nothing fun _ => rfl
  | cons item rest =>
    dsimp only
    by_cases hopen : (n.transport x).paused = false ∧ (n.transport x).closed = false
    · rw [if_pos hopen]
      cases item with
      | eof =>
        rw [if_pos ⟨hopen.1, hopen.2, .inl rfl⟩]
        exact .call (c := .eofReceived) rfl (by simp [modify_self, SimTransport.call])
          fun e he => by simp only [modify_of_ne he]
      | data bytes =>
        cases hp : p.buffered with
        | true =>
          rw [if_neg (by simp)]
          exact .nothing (reads_modify n x (f := fun t =>
            {t with inbox := rest, popped := t.popped ++ [.data bytes]}) fun _ => rfl)
        | false =>
          rw [if_pos ⟨hopen.1, hopen.2, .inr rfl⟩]
          exact .call (c := .dataReceived bytes) rfl (by simp [modify_self, SimTransport.call])
            fun e he => by simp only [modify_of_ne he]
    · rw [if_neg hopen, if_neg fun hc => hopen ⟨hc.1, hc.2.1⟩]
      exact .nothing fun _ => rfl

theorem fill_hands {p : Protocol} {view : List UInt8} (ha : n.activity = .filling x p view) :
    Hands (n.handing .advance) n (n.fill x p view) := by
  simp only [handing, ha]
  unfold fill
  split
  · exact .call (c := .getBuffer view.length) rfl (by simp [modify_self, SimTransport.call])
      fun e he => by simp only [modify_of_ne he]
  · exact .nothing fun _ => rfl

theorem buffer_hands {p : Protocol} {view : List UInt8} (ha : n.activity = .buffering x p view)
    (size : Nat) : Hands (n.handing (.bufferReturned size)) n (n.buffer x p view size) := by
  simp only [handing, ha]
  unfold buffer
  dsimp only
  split
  · exact .call (c := .bufferUpdated (view.take (min size view.length))) rfl
      (by simp [modify_self, SimTransport.call]) fun e he => by simp only [modify_of_ne he]
  · exact .nothing fun _ => rfl

/-- **A step hands over what the pump was about to, and nothing else.** -/
theorem step_hands {ev : Event} (h : n.WellFormed) (hs : n.step ev = some n') :
    Hands (n.handing ev) n n' := by
  by_cases hev : ev.aside = true
  · have hnone : n.handing ev = none := by
      cases ev with
      | advance | bufferReturned => cases hev
      | _ => rfl
    exact hnone ▸ (step_eases h hs hev).hands
  cases ev with
  | pauseReading e => exact (callOn_some hs).2.2 ▸ .nothing (reads_modify n e fun _ => rfl)
  | resumeReading e =>
    obtain ⟨_, _, rfl⟩ := callOn_some hs
    refine .nothing fun x => ?_
    unfold resumeReading
    rw [reads_schedulePump]
    exact reads_modify n e (f := fun t => {t with paused := false}) (fun _ => rfl) x
  | timer t cb =>
    obtain ⟨⟨_, hmem, _⟩, hs⟩ := Option.ite_none_right_eq_some.mp hs
    obtain ⟨e, rfl, _⟩ := h.timers _ hmem
    exact Option.some.inj hs ▸ .nothing (reads_arrive _ e)
  | ready cb =>
    obtain ⟨_, hs⟩ := Option.ite_none_right_eq_some.mp hs
    cases cb with
    | pump e =>
      exact Option.some.inj hs ▸ .nothing (reads_modify {n with ready := n.ready.erase (.pump e)} e
        (f := fun t => {t with pumpScheduled := false}) fun _ => rfl)
    | _ => exact absurd rfl hev
  | advance =>
    simp only [step, SimNetwork.advance] at hs
    split at hs
    next e p ha => exact Option.some.inj hs ▸ turn_hands ha
    next e p view ha => exact Option.some.inj hs ▸ fill_hands ha
    next => cases hs
  | returned =>
    simp only [step, SimNetwork.returned] at hs
    split at hs
    · exact Option.some.inj hs ▸ .nothing fun _ => rfl
    · exact Option.some.inj hs ▸ .nothing fun _ => rfl
    · cases hs
  | eofReturned keepOpen =>
    simp only [step] at hs
    split at hs
    next e p ha =>
      rw [← Option.some.inj hs]
      unfold SimNetwork.eofReturned
      cases keepOpen with
      | true => exact .nothing fun _ => rfl
      | false => exact .nothing fun x => (SimTransport.intake_eq ((Eases.close n e).intake x)).2.2.2
    next => cases hs
  | bufferReturned size =>
    simp only [step] at hs
    split at hs
    next e p view ha => exact Option.some.inj hs ▸ buffer_hands ha size
    next => cases hs
  | raised =>
    simp only [step, SimNetwork.raised] at hs
    split at hs
    all_goals first
      | cases hs; done
      | exact Option.some.inj hs ▸ .nothing fun _ => rfl
  | _ => exact absurd rfl hev

/-- Where the pump is about to hand something over, the step is possible. -/
theorem handing_enabled {ev : Event} {p : Protocol} (h : n.handing ev = some (e, p)) :
    (n.step ev).isSome = true := by
  cases ev with
  | advance =>
    cases ha : n.activity with
    | draining x q => simp [step, SimNetwork.advance, ha]
    | filling x q view => simp [step, SimNetwork.advance, ha]
    | _ => simp [handing, ha] at h
  | bufferReturned size =>
    cases ha : n.activity with
    | buffering x q view => simp [step, ha]
    | _ => simp [handing, ha] at h
  | _ => cases h

/-- The pump hands over to the protocol that it looked up. -/
theorem handing_pump {ev : Event} {p : Protocol} (h : n.handing ev = some (e, p)) :
    n.activity.pump = some (e, p) := by
  cases ev with
  | advance =>
    simp only [handing] at h
    split at h
    next ha =>
      rw [ha]
      split at h
      · cases h
      · exact (Option.ite_none_right_eq_some.mp h).2
    next ha =>
      rw [ha]
      exact (Option.ite_none_right_eq_some.mp h).2
    next => cases h
  | bufferReturned size =>
    simp only [handing] at h
    split at h
    next ha =>
      rw [ha]
      exact (Option.ite_none_right_eq_some.mp h).2
    next => cases h
  | _ => cases h

end SimNetwork

/-! ### The protocol that is installed -/

theorem Life.keeps_protocol (p : Protocol) :
    Transition.Keeps Life.step Life.SameProtocol fun l => l.protocol = p := by
  intro l a l' hkeeps h hs
  cases a with
  | tell =>
    obtain ⟨q, _, rfl⟩ := Option.map_eq_some_iff.mp hs
    exact h
  | kill | rest | forget => exact Option.some.inj hs ▸ h
  | force | finish | lose | pump =>
    obtain ⟨_, hs⟩ := Option.ite_none_right_eq_some.mp hs
    exact Option.some.inj hs ▸ h
  | engage =>
    simp only [Life.step] at hs
    split at hs
    · obtain ⟨_, hs⟩ := Option.ite_none_right_eq_some.mp hs
      exact Option.some.inj hs ▸ h
    · cases hs
  | update | returned =>
    simp only [Life.step] at hs
    split at hs
    · exact Option.some.inj hs ▸ h
    · cases hs
  | replace q => exact absurd rfl (hkeeps q)

namespace SimNetwork
variable {n n' : SimNetwork} {e x : EndId}

/-- Only `set_protocol` installs another protocol on an endpoint that was made. -/
theorem protocol_stays {ev : Event} (h : n.WellFormed) (hs : n.step ev = some n')
    (he : e.pair < n.pairs) (hretains : Retains e ev) :
    (n'.transport e).protocol = (n.transport e).protocol := by
  have hleads : (∃ co so c s, ev = .connect co so c s) ∨ Leads True none e n n' := by
    by_cases hprogram : ev.ofProgram = true
    · by_cases hconnect : ∃ co so c s, ev = .connect co so c s
      · exact .inl hconnect
      · exact .inr (program_leads hs hprogram (fun co so c s hev => hconnect ⟨co, so, c, s, hev⟩)
          fun _ => hretains)
    · exact .inr (loop_leads h hs (by simpa using hprogram))
  rcases hleads with ⟨co, so, c, s, rfl⟩ | hleads
  · obtain ⟨_, rfl⟩ := call_some hs
    have hne (server : Bool) : e ≠ ⟨n.pairs, server⟩ := fun hxe => absurd he (by rw [hxe]; simp)
    simp only [connectedPair, modify_of_ne (hne _)]
  · exact ((Life.keeps_protocol (n.transport e).protocol).mono fun _ _ hk => hk trivial).reaches rfl
      hleads.reaches

theorem schedulePump_activity (n : SimNetwork) (x : EndId) :
    (n.schedulePump x).activity = n.activity := by
  unfold schedulePump
  split <;> rfl

theorem arrive_activity (n : SimNetwork) (x : EndId) : (n.arrive x).activity = n.activity := by
  unfold arrive
  split
  · rfl
  · dsimp only
    rw [schedulePump_activity]
    split <;> rfl

/-- A pump was running before the step, or it begins and looks up what is installed. -/
theorem pump_began {ev : Event} {p : Protocol} (h : n.WellFormed) (hs : n.step ev = some n')
    (hpump : n'.activity.pump = some (e, p)) :
    n.activity.pump = some (e, p) ∨
      ev = .ready (.pump e) ∧ n.activity = .idle ∧ (n.transport e).protocol = p := by
  by_cases hev : ev.aside = true
  · exact .inl ((step_eases h hs hev).activity ▸ hpump)
  cases ev with
  | pauseReading x =>
    obtain ⟨_, _, rfl⟩ := callOn_some hs
    exact .inl hpump
  | resumeReading x =>
    obtain ⟨_, _, rfl⟩ := callOn_some hs
    rw [resumeReading, schedulePump_activity] at hpump
    exact .inl hpump
  | timer t cb =>
    obtain ⟨⟨hidle, hmem, _⟩, hs⟩ := Option.ite_none_right_eq_some.mp hs
    obtain ⟨x, rfl, _⟩ := h.timers _ hmem
    obtain rfl := Option.some.inj hs
    have hactivity : (arrive {n with timers := n.timers.erase (t, .arrive x)} x).activity = .idle := by
      rw [arrive_activity, hidle]
    have hpump' : (arrive {n with timers := n.timers.erase (t, .arrive x)} x).activity.pump =
      some (e, p) := hpump
    rw [hactivity] at hpump'
    cases hpump'
  | ready cb =>
    obtain ⟨⟨hidle, _⟩, hs⟩ := Option.ite_none_right_eq_some.mp hs
    cases cb with
    | pump x =>
      obtain rfl := Option.some.inj hs
      obtain ⟨rfl, rfl⟩ := Prod.mk.inj (Option.some.inj hpump)
      refine .inr ⟨rfl, hidle, ?_⟩
      simp only [modify_self]
    | _ => exact absurd rfl hev
  | advance =>
    simp only [step, SimNetwork.advance] at hs
    split at hs
    next x q ha =>
      obtain rfl := Option.some.inj hs
      rw [ha]
      unfold turn at hpump
      split at hpump
      · cases hpump
      · split at hpump
        · dsimp only at hpump
          split at hpump <;> exact .inl hpump
        · cases hpump
    next x q view ha =>
      obtain rfl := Option.some.inj hs
      rw [ha]
      unfold fill at hpump
      split at hpump <;> exact .inl hpump
    next => cases hs
  | returned =>
    simp only [step, SimNetwork.returned] at hs
    split at hs
    next x q ha =>
      obtain rfl := Option.some.inj hs
      exact .inl (ha ▸ hpump)
    next x q view ha =>
      obtain rfl := Option.some.inj hs
      exact .inl (ha ▸ hpump)
    next => cases hs
  | eofReturned keepOpen =>
    simp only [step] at hs
    split at hs
    next x q ha =>
      obtain rfl := Option.some.inj hs
      exact .inl (ha ▸ hpump)
    next => cases hs
  | bufferReturned size =>
    simp only [step] at hs
    split at hs
    next x q view ha =>
      obtain rfl := Option.some.inj hs
      rw [ha]
      unfold buffer at hpump
      dsimp only at hpump
      split at hpump
      · exact .inl hpump
      · cases hpump
    next => cases hs
  | raised =>
    simp only [step, SimNetwork.raised] at hs
    split at hs
    all_goals first
      | cases hs; done
      | obtain rfl := Option.some.inj hs; cases hpump
  | _ => exact absurd rfl hev

end SimNetwork

/-! ### What the protocol asked for -/

/-- The network, and beside it: `shut` where `close` was called, and `switched` where
`set_protocol` has, since the pump that is running began, put another protocol in the place
of the one that this pump looked up. -/
structure Watched where
  network : SimNetwork
  shut : EndId → Bool
  switched : EndId → Bool

namespace SimNetwork

/-- `close` is called on an endpoint: by the program, or after an `eof_received` that does
not keep it open. -/
def shuts (n : SimNetwork) (e : EndId) : Event → Bool
  | .close x => x = e
  | .eofReturned keepOpen => match n.activity with
    | .ending x _ => !keepOpen && x = e
    | _ => false
  | _ => false

/-- A pump that begins has looked up the protocol that is installed; a switch to another
is one while that pump runs. -/
def switches (n : SimNetwork) (before : Bool) (e : EndId) : Event → Bool
  | .ready (.pump x) => if x = e then false else before
  | .setProtocol x q =>
    if x = e then n.activity.pump.any fun a => a.1 = e ∧ a.2 ≠ q
    else before
  | _ => before

end SimNetwork

namespace Watched
open SimNetwork (firstClient firstServer)

def start (draws : Nat → Fin 64 × Fin 100) : Watched :=
  ⟨.start draws, fun _ => false, fun _ => false⟩

def step (w : Watched) (ev : SimNetwork.Event) : Option Watched :=
  (w.network.step ev).map fun n =>
    { network := n
      shut := fun e => w.shut e || w.network.shuts e ev
      switched := fun e => w.network.switches (w.switched e) e ev }

/-- Whatever the step hands over, at an endpoint and to a protocol, satisfies `P`. -/
def Each (P : Watched → EndId → Protocol → Prop) (w : Watched) (ev : SimNetwork.Event) : Prop :=
  ∀ w', w.step ev = some w' → ∀ e p c, c.reading = true →
    (w'.network.transport e).calls = (w.network.transport e).calls ++ [(p, c)] → P w e p

variable {w w' : Watched} {P : Watched → EndId → Protocol → Prop}

theorem step_network {ev : SimNetwork.Event} (hs : w.step ev = some w') :
    w.network.step ev = some w'.network := by
  obtain ⟨n, hn, rfl⟩ := Option.map_eq_some_iff.mp hs
  exact hn

/-- What a step hands over is what the pump was about to. -/
theorem each_iff {ev : SimNetwork.Event} (h : w.network.WellFormed) :
    w.Each P ev ↔ ∀ e p, w.network.handing ev = some (e, p) → P w e p := by
  constructor
  · intro heach e p hhanding
    obtain ⟨n', hn'⟩ := Option.isSome_iff_exists.mp (SimNetwork.handing_enabled hhanding)
    rcases SimNetwork.step_hands h hn' e with ⟨q, c, hq, hc, hcalls⟩ | ⟨hnone, _⟩
    · obtain rfl : p = q := (Prod.mk.inj (Option.some.inj (hhanding.symm.trans hq))).2
      exact heach _ (by rw [step, hn']; rfl) e p c hc hcalls
    · exact absurd hhanding (hnone p)
  · intro hall w' hs e p c hc hcalls
    rcases SimNetwork.step_hands h (step_network hs) e with ⟨q, d, hq, _, hcalls'⟩ | ⟨_, hreads⟩
    · rw [hcalls, List.append_cancel_left_eq] at hcalls'
      obtain rfl : p = q := (Prod.mk.inj (List.cons.inj hcalls').1).1
      exact hall e p hq
    · rw [SimTransport.reads, hcalls, List.filter_append] at hreads
      simp [hc, SimTransport.reads] at hreads

/-- A run, and one step after it. -/
def lastStep (draws : Nat → Fin 64 × Fin 100) (before : List SimNetwork.Event) (ev : SimNetwork.Event) :
    Option (Watched × Watched) :=
  (Transition.run step (start draws) before).bind fun w => (w.step ev).map fun w' => (w, w')

theorem lastStep_some {draws : Nat → Fin 64 × Fin 100} {before : List SimNetwork.Event} {ev : SimNetwork.Event}
    (h : lastStep draws before ev = some (w, w')) :
    Transition.run step (start draws) before = some w ∧ w.step ev = some w' := by
  obtain ⟨u, hu, h⟩ := Option.bind_eq_some_iff.mp h
  obtain ⟨v, hv, h⟩ := Option.map_eq_some_iff.mp h
  obtain ⟨rfl, rfl⟩ := Prod.mk.inj h
  exact ⟨hu, hv⟩

theorem keeps_wellFormed (Q : Watched → SimNetwork.Event → Prop) :
    Transition.Keeps step Q fun w => w.network.WellFormed := fun w ev _ _ h hs =>
  SimNetwork.keeps_wellFormed (fun _ _ => True) w.network ev _ trivial h (step_network hs)

/-! ### Stopped reading -/

/-- `close` was not called on the endpoint, and reading is not paused. -/
def Reading (w : Watched) (e : EndId) (_ : Protocol) : Prop :=
  w.shut e = false ∧ (w.network.transport e).paused = false

/-- A pump with the protocol `p` can take an item and hand it over at once. -/
def Takeable (w : Watched) (e : EndId) (p : Protocol) : Prop :=
  (w.network.transport e).paused = false ∧ (w.network.transport e).closed = false ∧
    ∃ item, (w.network.transport e).inbox.head? = some item ∧ (item = .eof ∨ p.buffered = false)

/-- The protocol's moves that the pump does not see. Before `_finalize` it called `close` while
something can still be taken; or it called `close` or `pause_reading` inside a chunk with a rest
left, between two buffers or when it was asked for one. -/
inductive Unseen (w : Watched) : SimNetwork.Event → Prop where
  | closedEarly {e : EndId} {p : Protocol} : w.network.activity = .draining e p →
      w.shut e = true → w.Takeable e p → Unseen w .advance
  | insideChunk {e : EndId} {p : Protocol} {rest : List UInt8} :
      w.network.activity = .filling e p rest → rest ≠ [] → (w.network.transport e).closed = false →
      (w.shut e = true ∨ (w.network.transport e).paused = true) → Unseen w .advance
  | insideBuffer {e : EndId} {p : Protocol} {rest : List UInt8} {size : Nat} :
      w.network.activity = .buffering e p rest → 0 < min size rest.length →
      (w.shut e = true ∨ (w.network.transport e).paused = true) → Unseen w (.bufferReturned size)

/-- The protocol makes no such move. -/
def Mindful (w : Watched) (ev : SimNetwork.Event) : Prop := ¬w.Unseen ev

theorem not_reading {w : Watched} {e : EndId} {p : Protocol} (h : ¬w.Reading e p) :
    w.shut e = true ∨ (w.network.transport e).paused = true := by
  by_cases hshut : w.shut e = true
  · exact .inl hshut
  · exact .inr (by simpa [Reading, hshut] using h)

/-- The pump is about to hand something over that it should not exactly after such a move. -/
theorem handing_mindful (w : Watched) (ev : SimNetwork.Event) :
    (∀ e p, w.network.handing ev = some (e, p) → w.Reading e p) ↔ w.Mindful ev := by
  constructor
  · intro hall hunseen
    cases hunseen with
    | @closedEarly e p ha hshut htake =>
      obtain ⟨hp, hc, item, hitem, hkind⟩ := htake
      obtain ⟨rest, hinbox⟩ := List.head?_eq_some_iff.mp hitem
      have hread := hall e p (by simp only [SimNetwork.handing, ha, hinbox, hp, hc, hkind, and_self, if_true])
      exact absurd hread.1 (by simp [hshut])
    | @insideChunk e p rest ha hrest hc hmove =>
      have hread := hall e p (by simp only [SimNetwork.handing, ha]; exact if_pos ⟨hrest, hc⟩)
      rcases hmove with hshut | hpaused
      · exact absurd hread.1 (by simp [hshut])
      · exact absurd hread.2 (by simp [hpaused])
    | @insideBuffer e p rest size ha hsize hmove =>
      have hread := hall e p (by simp only [SimNetwork.handing, ha]; exact if_pos hsize)
      rcases hmove with hshut | hpaused
      · exact absurd hread.1 (by simp [hshut])
      · exact absurd hread.2 (by simp [hpaused])
  · intro hmindful e p hhanding
    by_contra hread
    refine hmindful ?_
    cases ev with
    | advance =>
      simp only [SimNetwork.handing] at hhanding
      split at hhanding
      next ha =>
        split at hhanding
        · cases hhanding
        next item rest hinbox =>
          obtain ⟨⟨hp, hc, hkind⟩, hx⟩ := Option.ite_none_right_eq_some.mp hhanding
          obtain ⟨rfl, rfl⟩ := Prod.mk.inj (Option.some.inj hx)
          have hshut := (not_reading hread).resolve_right (by simp [hp])
          exact .closedEarly ha hshut ⟨hp, hc, item, by rw [hinbox]; rfl, hkind⟩
      next ha =>
        obtain ⟨⟨hrest, hc⟩, hx⟩ := Option.ite_none_right_eq_some.mp hhanding
        obtain ⟨rfl, rfl⟩ := Prod.mk.inj (Option.some.inj hx)
        exact .insideChunk ha hrest hc (not_reading hread)
      next => cases hhanding
    | bufferReturned size =>
      simp only [SimNetwork.handing] at hhanding
      split at hhanding
      next ha =>
        obtain ⟨hsize, hx⟩ := Option.ite_none_right_eq_some.mp hhanding
        obtain ⟨rfl, rfl⟩ := Prod.mk.inj (Option.some.inj hx)
        exact .insideBuffer ha hsize (not_reading hread)
      next => cases hhanding
    | _ => cases hhanding

/-- **Whatever a run hands over comes before `close` and while reading is not paused,
exactly when the protocol never makes a move that the pump does not see.** -/
theorem reading_stopped_iff (draws : Nat → Fin 64 × Fin 100) (events : List SimNetwork.Event) :
    Transition.Along step (Each Reading) (start draws) events ↔
      Transition.Along step Mindful (start draws) events :=
  Transition.along_congr (keeps_wellFormed _)
    (fun w ev h => (each_iff h).trans (handing_mindful w ev))
    (SimNetwork.wellFormed_start draws) events

/-- Two chunks arrive before the pump runs, and the first `data_received` closes. -/
def closedBetween : List SimNetwork.Event :=
  [.connect "a" "b" ⟨1, false⟩ ⟨2, false⟩, .write firstClient [1], .write firstClient [2], .tick 1,
    .timer (1 / 2000) (.arrive firstServer), .timer (1 / 2000) (.arrive firstServer),
    .ready (.pump firstServer), .advance, .close firstServer, .returned]

/-- The second chunk is handed over to a protocol that has called `close`. -/
theorem received_after_close : ¬∀ (draws : Nat → Fin 64 × Fin 100) (events : List SimNetwork.Event),
    Transition.Along step (Each Reading) (start draws) events := by
  intro hall
  obtain ⟨⟨m, w'⟩, hm, hend⟩ := Option.map_eq_some_iff.mp (by decide +kernel :
    (lastStep (fun _ => (0, 0)) closedBetween .advance).map
      (fun s => (s.1.shut firstServer, (s.1.network.transport firstServer).calls,
        (s.2.network.transport firstServer).calls)) =
      some (true, [(⟨2, false⟩, .connectionMade), (⟨2, false⟩, .dataReceived [1])],
        [(⟨2, false⟩, .connectionMade), (⟨2, false⟩, .dataReceived [1]),
          (⟨2, false⟩, .dataReceived [2])]))
  simp only [Prod.mk.injEq] at hend
  obtain ⟨hrun, hs⟩ := lastStep_some hm
  have hreading : Reading m firstServer ⟨2, false⟩ :=
    Transition.along_iff.mp (hall _ (closedBetween ++ [.advance])) closedBetween .advance [] m rfl hrun
      w' hs firstServer ⟨2, false⟩ (.dataReceived [2]) rfl (by rw [hend.2.1, hend.2.2]; rfl)
  rw [Reading, hend.1] at hreading
  cases hreading.1

/-! ### Switched protocols -/

/-- The protocol is the one that the last `set_protocol` installed. -/
def Installed (w : Watched) (e : EndId) (p : Protocol) : Prop := (w.network.transport e).protocol = p

/-- The pump goes on to no call where, since it began, the protocol has been switched. -/
def Unswitched (w : Watched) (ev : SimNetwork.Event) : Prop :=
  ∀ e p, w.network.handing ev = some (e, p) → w.switched e = false

/-- `switched` says whether the pump that is running has looked up another protocol than
the one that is installed. -/
structure Tracked (w : Watched) : Prop where
  wellFormed : w.network.WellFormed
  switched : ∀ e p, w.network.activity.pump = some (e, p) →
    (w.switched e = false ↔ Installed w e p)

theorem tracked_start (draws : Nat → Fin 64 × Fin 100) : (start draws).Tracked :=
  ⟨SimNetwork.wellFormed_start draws, fun _ _ hp => by cases hp⟩

theorem pump_made {n : SimNetwork} {e : EndId} {p : Protocol} (h : n.WellFormed)
    (hpump : n.activity.pump = some (e, p)) : e.pair < n.pairs := by
  refine h.activity e ?_
  cases ha : n.activity with
  | idle =>
    rw [ha] at hpump
    cases hpump
  | _ =>
    rw [ha] at hpump
    exact congrArg some (Prod.mk.inj (Option.some.inj hpump)).1

theorem keeps_tracked : Transition.Keeps step (fun _ _ => True) Tracked := by
  intro w ev w' _ h hs
  obtain ⟨n, hn, rfl⟩ := Option.map_eq_some_iff.mp hs
  refine ⟨keeps_wellFormed (fun _ _ => True) w ev _ trivial h.wellFormed hs, fun e p hpump => ?_⟩
  rcases SimNetwork.pump_began h.wellFormed hn hpump with hbefore | ⟨rfl, hidle, rfl⟩
  · have hmade := pump_made h.wellFormed hbefore
    have hold := h.switched e p hbefore
    by_cases hretains : SimNetwork.Retains e ev
    · -- nothing is installed on `e`
      have hsame : w.network.switches (w.switched e) e ev = w.switched e := by
        unfold SimNetwork.switches
        split
        next x =>
          obtain ⟨⟨hidle, _⟩, _⟩ := Option.ite_none_right_eq_some.mp hn
          rw [hidle] at hbefore
          cases hbefore
        next x q => rw [if_neg fun hx => hretains hx.symm]
        next => rfl
      simp only [Installed, hsame, SimNetwork.protocol_stays h.wellFormed hn hmade hretains]
      exact hold
    · cases ev with
      | setProtocol x q =>
        obtain rfl : e = x := not_not.mp hretains
        obtain ⟨_, _, rfl⟩ := SimNetwork.callOn_some hn
        have hany : w.network.switches (w.switched e) e (.setProtocol e q) = decide (p ≠ q) := by
          simp [SimNetwork.switches, hbefore]
        simp only [Installed, hany, SimNetwork.setProtocol, SimNetwork.modify_self]
        rw [decide_eq_false_iff_not, not_not, eq_comm]
      | _ => exact absurd trivial hretains
  · have hs' : w.network.switches (w.switched e) e (.ready (.pump e)) = false := if_pos rfl
    simp only [hs', true_iff, Installed]
    obtain ⟨_, hn⟩ := Option.ite_none_right_eq_some.mp hn
    rw [← Option.some.inj hn]
    simp only [SimNetwork.callback, SimNetwork.pump, SimNetwork.modify_self]

/-- **Every call of a run that hands something over is made on the protocol that was
installed last, exactly when no pump goes on once the protocol has been switched in one of
its own calls.** -/
theorem switch_immediate_iff (draws : Nat → Fin 64 × Fin 100) (events : List SimNetwork.Event) :
    Transition.Along step (Each Installed) (start draws) events ↔
      Transition.Along step Unswitched (start draws) events := by
  refine Transition.along_congr keeps_tracked (fun w ev h => (each_iff h.wellFormed).trans ?_)
    (tracked_start draws) events
  refine forall₂_congr fun e p => imp_congr_right fun hhanding => ?_
  exact (h.switched e p (SimNetwork.handing_pump hhanding)).symm

/-- Two chunks arrive before the pump runs, and the first `data_received` switches the
protocol. -/
def switchedBetween : List SimNetwork.Event :=
  [.connect "a" "b" ⟨1, false⟩ ⟨2, false⟩, .write firstClient [1], .write firstClient [2], .tick 1,
    .timer (1 / 2000) (.arrive firstServer), .timer (1 / 2000) (.arrive firstServer),
    .ready (.pump firstServer), .advance, .setProtocol firstServer ⟨3, false⟩, .returned]

/-- The second chunk is handed over to the protocol that was replaced. -/
theorem received_after_switch : ¬∀ (draws : Nat → Fin 64 × Fin 100) (events : List SimNetwork.Event),
    Transition.Along step (Each Installed) (start draws) events := by
  intro hall
  obtain ⟨⟨m, w'⟩, hm, hend⟩ := Option.map_eq_some_iff.mp (by decide +kernel :
    (lastStep (fun _ => (0, 0)) switchedBetween .advance).map
      (fun s => ((s.1.network.transport firstServer).protocol,
        (s.1.network.transport firstServer).calls, (s.2.network.transport firstServer).calls)) =
      some (⟨3, false⟩, [(⟨2, false⟩, .connectionMade), (⟨2, false⟩, .dataReceived [1])],
        [(⟨2, false⟩, .connectionMade), (⟨2, false⟩, .dataReceived [1]),
          (⟨2, false⟩, .dataReceived [2])]))
  simp only [Prod.mk.injEq] at hend
  obtain ⟨hrun, hs⟩ := lastStep_some hm
  have hinstalled : Installed m firstServer ⟨2, false⟩ :=
    Transition.along_iff.mp (hall _ (switchedBetween ++ [.advance])) switchedBetween .advance [] m rfl
      hrun w' hs firstServer ⟨2, false⟩ (.dataReceived [2]) rfl (by rw [hend.2.1, hend.2.2]; rfl)
  rw [Installed, hend.1] at hinstalled
  exact absurd hinstalled (by decide)

end Watched
end Simloom
