import Simloom.Net.WellFormed
import Simloom.Net.Flow

/-! One direction of a connection in the network.

`channel n r` is what the network holds of the direction towards the endpoint `r`.
What `r` does as a receiver and its peer as a sender shows there as the channel's own
operations; everything else leaves the channel as it is. -/
namespace Simloom
open Theory

theorem EndId.eq_or_peer (e r : EndId) : e = r ∨ e = r.peer ∨ e.pair ≠ r.pair := by
  obtain ⟨pair, server⟩ := e
  obtain ⟨pair', server'⟩ := r
  by_cases h : pair = pair'
  · subst h
    cases server <;> cases server' <;> simp [peer]
  · exact .inr (.inr h)

/-- What the running pump is doing. -/
def Activity.phase : Activity → Phase
  | .idle => .idle
  | .draining _ _ => .draining
  | .receiving _ _ => .receiving
  | .ending _ _ => .ending
  | .filling _ _ view => .filling view
  | .buffering _ _ view => .buffering view
  | .updating _ _ view => .updating view

namespace SimNetwork
variable {n : SimNetwork} {e r : EndId}

/-! ### The direction towards an endpoint -/

/-- When the timers of an endpoint go off. -/
def alarms (n : SimNetwork) (r : EndId) : List ℚ :=
  n.timers.filterMap fun t => if t.2 = .arrive r then some t.1 else none

def phaseAt (n : SimNetwork) (r : EndId) : Phase :=
  if n.activity.at = some r then n.activity.phase else .idle

def channel (n : SimNetwork) (r : EndId) : Channel where
  established := decide (r.pair < n.pairs)
  blocked := n.isBlockedFrom r.peer
  now := n.now
  accepted := (n.transport r.peer).accepted
  held := (n.transport r.peer).held
  senderClosing := (n.transport r.peer).closing
  senderClosed := (n.transport r.peer).closed
  pending := (n.transport r).pending
  arrivals := n.alarms r
  lastArrival := (n.transport r).lastArrival
  assigned := (n.transport r).assigned
  inbox := (n.transport r).inbox
  entered := (n.transport r).entered
  popped := (n.transport r).popped
  paused := (n.transport r).paused
  pumpScheduled := (n.transport r).pumpScheduled
  pumps := n.ready.count (.pump r)
  phase := n.phaseAt r
  closing := (n.transport r).closing
  closed := (n.transport r).closed
  handed := (n.transport r).handed

/-- The receiver's part of a channel. -/
def withReceiver (c : Channel) (t : SimTransport) : Channel :=
  {c with
    pending := t.pending, lastArrival := t.lastArrival, assigned := t.assigned, inbox := t.inbox
    entered := t.entered, popped := t.popped, paused := t.paused
    pumpScheduled := t.pumpScheduled, closing := t.closing, closed := t.closed
    handed := t.handed}

/-- The sender's part. -/
def withSender (c : Channel) (t : SimTransport) : Channel :=
  {c with
    accepted := t.accepted, held := t.held, senderClosing := t.closing, senderClosed := t.closed}

theorem isBlockedFrom_modify (n : SimNetwork) (x : EndId) {f : SimTransport → SimTransport}
    (ho : (f (n.transport e)).owner = (n.transport e).owner) :
    (n.modify e f).isBlockedFrom x = n.isBlockedFrom x := by
  have howner (y : EndId) : ((n.modify e f).transport y).owner = (n.transport y).owner := by
    by_cases hy : y = e
    · rw [hy, modify_self, ho]
    · rw [modify_of_ne hy]
  unfold isBlockedFrom isBlocked
  rw [howner, howner]
  rfl

theorem channel_modify_self (n : SimNetwork) (r : EndId) {f : SimTransport → SimTransport}
    (ho : (f (n.transport r)).owner = (n.transport r).owner) :
    (n.modify r f).channel r = withReceiver (n.channel r) (f (n.transport r)) := by
  simp only [channel, isBlockedFrom_modify n _ ho, modify_self, modify_of_ne r.peer_ne]
  rfl

theorem channel_modify_peer (n : SimNetwork) (r : EndId) {f : SimTransport → SimTransport}
    (ho : (f (n.transport r.peer)).owner = (n.transport r.peer).owner) :
    (n.modify r.peer f).channel r = withSender (n.channel r) (f (n.transport r.peer)) := by
  simp only [channel, isBlockedFrom_modify n _ ho, modify_self, modify_of_ne r.peer_ne.symm]
  rfl

theorem channel_modify_apart (n : SimNetwork) (h : e.pair ≠ r.pair)
    (f : SimTransport → SimTransport) : (n.modify e f).channel r = n.channel r := by
  have hr : r ≠ e := fun hre => h (by rw [hre])
  have hp : r.peer ≠ e := fun hre => h (by rw [← hre, EndId.peer_pair])
  have hblocked : (n.modify e f).isBlockedFrom r.peer = n.isBlockedFrom r.peer := by
    unfold isBlockedFrom isBlocked
    rw [EndId.peer_peer, modify_of_ne hr, modify_of_ne hp]
    rfl
  simp only [channel, hblocked, modify_of_ne hr, modify_of_ne hp]
  rfl

theorem channel_timers (n : SimNetwork) (r : EndId) (timers : List (ℚ × Callback))
    (drawn delayed : Nat) :
    channel {n with timers := timers, drawn := drawn, chunksDelayedByLoss := delayed} r =
      {n.channel r with
        arrivals := timers.filterMap fun t => if t.2 = .arrive r then some t.1 else none} := rfl

theorem channel_callSoon (n : SimNetwork) {cb : Callback} (h : cb ≠ .pump r) :
    (n.callSoon cb).channel r = n.channel r := by
  have hcount : (n.ready ++ [cb]).count (.pump r) = n.ready.count (.pump r) := by
    rw [List.count_append, List.count_singleton, if_neg (by simpa using h), Nat.add_zero]
  show {n.channel r with pumps := (n.ready ++ [cb]).count (.pump r)} = n.channel r
  rw [hcount]
  rfl

/-! ### Sending -/

theorem transmit_channel (n : SimNetwork) (r : EndId) (item : Item) :
    ∃ arrival, (n.channel r).lastArrival ≤ arrival ∧
      (n.transmit r.peer item).channel r = (n.channel r).assign item arrival := by
  obtain ⟨arrival, drawn, delayed, hle, heq⟩ := n.transmit_eq r.peer item
  rw [EndId.peer_peer] at hle heq
  refine ⟨arrival, hle, ?_⟩
  have hm := n.channel_modify_self r (f := awaiting item arrival) rfl
  rw [heq]
  rw [channel_timers, hm, List.filterMap_append]
  simp
  rfl

theorem transmit_channel_ne (n : SimNetwork) (h : e ≠ r.peer) (item : Item) :
    (n.transmit e item).channel r = n.channel r := by
  obtain ⟨arrival, drawn, delayed, _, heq⟩ := n.transmit_eq e item
  have hne : e.peer ≠ r := fun hr => h (EndId.peer_eq_iff.mp hr)
  have hm : (n.modify e.peer (awaiting item arrival)).channel r = n.channel r := by
    rcases e.eq_or_peer r with rfl | he | he
    · rw [channel_modify_peer _ _ rfl]
      rfl
    · exact absurd he h
    · exact channel_modify_apart n (e := e.peer) he _
  rw [heq]
  rw [channel_timers, hm, List.filterMap_append]
  simp [hne]
  rfl

/-- What `_send` does on the direction it sends in. -/
theorem send_channel (n : SimNetwork) (r : EndId) (item : Item) :
    (((n.channel r).held ≠ [] ∨ (n.channel r).blocked = true) ∧
      (n.send r.peer item).channel r =
        {n.channel r with
          accepted := (n.channel r).accepted ++ [item], held := (n.channel r).held ++ [item]}) ∨
    ((n.channel r).held = [] ∧ (n.channel r).blocked = false ∧
      ∃ arrival, (n.channel r).lastArrival ≤ arrival ∧ (n.send r.peer item).channel r =
        {n.channel r with accepted := (n.channel r).accepted ++ [item]}.assign item arrival) := by
  have hm := n.channel_modify_peer r
    (f := fun t => {t with accepted := t.accepted ++ [item]}) rfl
  unfold send
  dsimp only
  rw [isBlockedFrom_modify n _ rfl, modify_self]
  split
  next hheld =>
    refine .inl ⟨hheld, ?_⟩
    rw [channel_modify_peer _ _ rfl, hm, modify_self]
    rfl
  next hheld =>
    obtain ⟨arrival, hle, heq⟩ := transmit_channel
      (n.modify r.peer fun t => {t with accepted := t.accepted ++ [item]}) r item
    rw [hm] at hle heq
    have hnot := not_or.mp hheld
    exact .inr ⟨not_not.mp hnot.1, Bool.eq_false_of_not_eq_true hnot.2, arrival, hle, heq⟩

theorem send_channel_ne (n : SimNetwork) (h : e ≠ r.peer) (item : Item) :
    (n.send e item).channel r = n.channel r := by
  have hm (m : SimNetwork) (f : SimTransport → SimTransport)
      (ho : (f (m.transport e)).owner = (m.transport e).owner)
      (hf : withReceiver (m.channel e) (f (m.transport e)) = m.channel e) :
      (m.modify e f).channel r = m.channel r := by
    rcases e.eq_or_peer r with rfl | he | he
    · rw [channel_modify_self _ _ ho, hf]
    · exact absurd he h
    · exact channel_modify_apart m he _
  have haccept := hm n (fun t => {t with accepted := t.accepted ++ [item]}) rfl rfl
  unfold send
  dsimp only
  split
  · exact (hm _ (fun t => {t with held := t.held ++ [item]}) rfl rfl).trans haccept
  · exact (transmit_channel_ne _ h item).trans haccept

/-! ### Releasing what is held -/

/-- `flush` does not look at what is held. -/
theorem flush_held (items : List Item) (times : List ℚ) (c : Channel) (held : List Item) :
    Channel.flush items times {c with held := held} = Channel.flush items times c := by
  induction items generalizing times c with
  | nil => cases times <;> rfl
  | cons item rest ih =>
    cases times with
    | nil => rfl
    | cons a times =>
      show (if c.lastArrival ≤ a then
        Channel.flush rest times {c.assign item a with held := held} else none) = _
      rw [ih]
      rfl

theorem flush_nil (c : Channel) (h : c.held = []) : Channel.flush [] [] c = some c := by
  cases c
  cases h
  rfl

theorem flush_channel (n : SimNetwork) (r : EndId) (hopen : (n.channel r).blocked = false)
    {items : List Item} (hheld : (n.channel r).held = items) :
    ∃ times, Channel.flush items times (n.channel r) =
      some ((flush r.peer items n).channel r) := by
  induction items generalizing n with
  | nil => exact ⟨[], flush_nil _ hheld⟩
  | cons item rest ih =>
    have hopen' : n.isBlockedFrom r.peer = false := hopen
    have hpop := n.channel_modify_peer r (f := fun t => {t with held := rest}) rfl
    obtain ⟨arrival, hle, heq⟩ :=
      transmit_channel (n.modify r.peer fun t => {t with held := rest}) r item
    rw [hpop] at hle heq
    obtain ⟨times, ht⟩ := ih ((n.modify r.peer fun t => {t with held := rest}).transmit r.peer item)
      (by rw [heq]; exact hopen) (by rw [heq]; rfl)
    rw [heq] at ht
    refine ⟨arrival :: times, ?_⟩
    have hle' : (n.channel r).lastArrival ≤ arrival := hle
    unfold SimNetwork.flush
    rw [Channel.flush, if_pos hle', hopen', if_neg (by decide), ← ht]
    exact (flush_held rest times _ rest).symm

/-- A flush that has nothing to do, or none of this direction. -/
theorem flushHeld_idle (n : SimNetwork) (r e : EndId)
    (h : e = r.peer → (n.channel r).blocked = true ∨ (n.channel r).senderClosed = true ∨
      (n.channel r).held = []) : (n.flushHeld e).channel r = n.channel r := by
  have hother (items : List Item) (m : SimNetwork) (hne : e ≠ r.peer) :
      (flush e items m).channel r = m.channel r := by
    induction items generalizing m with
    | nil => rfl
    | cons item rest ih =>
      unfold flush
      split
      · rfl
      · rw [ih, transmit_channel_ne _ hne]
        rcases e.eq_or_peer r with rfl | he | he
        · rw [channel_modify_self _ _ rfl]
          rfl
        · exact absurd he hne
        · exact channel_modify_apart m he _
  unfold flushHeld
  split
  · rfl
  next hopen =>
    by_cases he : e = r.peer
    · subst he
      rcases h rfl with hb | hc | hh
      · have hb' : n.isBlockedFrom r.peer = true := hb
        cases (n.transport r.peer).held with
        | nil => rfl
        | cons item rest => rw [flush, if_pos hb']
      · exact absurd hc hopen
      · have hh' : (n.transport r.peer).held = [] := hh
        rw [hh']
        rfl
    · exact hother _ n he

theorem foldl_flushHeld_idle (n : SimNetwork) (r : EndId) (live : List EndId)
    (h : r.peer ∈ live → (n.channel r).blocked = true ∨ (n.channel r).senderClosed = true ∨
      (n.channel r).held = []) : (live.foldl flushHeld n).channel r = n.channel r := by
  refine List.foldlRecOn (motive := fun m : SimNetwork => m.channel r = n.channel r) live _ rfl
    fun m hm e he => ?_
  refine (m.flushHeld_idle r e fun hr => ?_).trans hm
  rw [hm]
  exact h (hr ▸ he)

/-- A release puts everything that was held in an unblocked direction under way. -/
theorem release_channel (h : n.WellFormed) (r : EndId) (hopen : (n.channel r).blocked = false)
    (hsender : (n.channel r).senderClosed = false) :
    ∃ times, Channel.flush (n.channel r).held times (n.channel r) =
      some (n.release.channel r) := by
  have hnone (live : List EndId) (hh : (n.channel r).held = []) :
      ∃ times, Channel.flush (n.channel r).held times (n.channel r) =
        some ((live.foldl flushHeld n).channel r) := by
    rw [foldl_flushHeld_idle n r live fun _ => .inr (.inr hh), hh]
    exact ⟨[], flush_nil _ hh⟩
  have hfold (live : List EndId) (hmem : r.peer ∈ live) (m : SimNetwork)
      (hm : m.channel r = n.channel r) :
      ∃ times, Channel.flush (n.channel r).held times (n.channel r) =
        some ((live.foldl flushHeld m).channel r) := by
    induction live generalizing m with
    | nil => cases hmem
    | cons e rest ih =>
      rw [List.foldl_cons]
      by_cases he : e = r.peer
      · subst he
        have hopen' : (m.transport r.peer).closed = false := by
          have hc : (m.channel r).senderClosed = false := by rw [hm]; exact hsender
          exact hc
        obtain ⟨times, ht⟩ := m.flush_channel r (by rw [hm]; exact hopen) rfl
        have hdone : ((flush r.peer (m.channel r).held m).channel r).held = [] := by
          obtain ⟨⟨_, heq, _⟩, _⟩ := Channel.flush_eq ht
          rw [heq]
        refine ⟨times, ?_⟩
        have hflush : m.flushHeld r.peer = flush r.peer (m.channel r).held m := by
          unfold flushHeld
          rw [hopen', if_neg (by decide)]
          rfl
        rw [hflush, foldl_flushHeld_idle _ r rest fun _ => .inr (.inr hdone), ← hm]
        exact ht
      · have hstay := m.flushHeld_idle r e fun hr => absurd hr he
        exact ih ((List.mem_cons.mp hmem).resolve_left (Ne.symm he)) _ (hstay.trans hm)
  rcases Nat.lt_or_ge r.pair n.pairs with hmade | hunmade
  · exact hfold n.live (h.live r.peer hmade hsender) n rfl
  · refine hnone n.live ?_
    show (n.transport r.peer).held = []
    rw [h.unmade r.peer hunmade]
    rfl

/-! ### Receiving -/

theorem schedulePump_channel (n : SimNetwork) (r : EndId) :
    (n.schedulePump r).channel r = (n.channel r).schedule := by
  unfold schedulePump Channel.schedule
  by_cases h : (n.transport r).pumpScheduled = false ∧ (n.transport r).closed = false
  · have hm := n.channel_modify_self r (f := fun t => {t with pumpScheduled := true}) rfl
    have h' : (n.channel r).pumpScheduled = false ∧ (n.channel r).closed = false := h
    rw [if_pos h, if_pos h']
    show {(n.modify r fun t => {t with pumpScheduled := true}).channel r with
      pumps := (n.ready ++ [Callback.pump r]).count (Callback.pump r)} = _
    rw [hm, List.count_append, List.count_singleton_self]
    rfl
  · have h' : ¬ ((n.channel r).pumpScheduled = false ∧ (n.channel r).closed = false) := h
    rw [if_neg h, if_neg h']

/-- Changing what only the receiver of another direction has. -/
theorem modify_receiver_ne (n : SimNetwork) (h : e ≠ r) {f : SimTransport → SimTransport}
    (ho : (f (n.transport e)).owner = (n.transport e).owner)
    (hs : ∀ c, withSender c (f (n.transport e)) = withSender c (n.transport e)) :
    (n.modify e f).channel r = n.channel r := by
  rcases e.eq_or_peer r with he | rfl | he
  · exact absurd he h
  · rw [channel_modify_peer _ _ ho, hs]
    rfl
  · exact channel_modify_apart n he f

theorem schedulePump_channel_ne (n : SimNetwork) (h : e ≠ r) :
    (n.schedulePump e).channel r = n.channel r := by
  unfold schedulePump
  split
  · rw [channel_callSoon _ (by simpa using h)]
    exact modify_receiver_ne n h rfl fun _ => rfl
  · rfl

theorem arrive_channel (n : SimNetwork) (r : EndId) :
    (n.arrive r).channel r =
      if (n.channel r).closed = true then n.channel r else (n.channel r).enter.schedule := by
  unfold arrive
  have hclosed : (n.channel r).closed = (n.transport r).closed := rfl
  rw [hclosed]
  split
  · rfl
  · dsimp only
    rw [schedulePump_channel]
    congr 1
    have hpending : (n.channel r).pending = (n.transport r).pending := rfl
    unfold Channel.enter
    rw [hpending]
    cases (n.transport r).pending with
    | nil => rfl
    | cons item rest =>
      dsimp only
      rw [channel_modify_self _ _ rfl]
      rfl

theorem arrive_channel_ne (n : SimNetwork) (h : e ≠ r) : (n.arrive e).channel r = n.channel r := by
  unfold arrive
  split
  · rfl
  · dsimp only
    rw [schedulePump_channel_ne _ h]
    split
    · rfl
    · exact modify_receiver_ne n h rfl fun _ => rfl

/-! ### The pump -/

theorem handed_call (t : SimTransport) (p : Protocol) (c : Call) :
    (t.call p c).handed = t.handed ++ c.marks := by
  simp [SimTransport.handed, SimTransport.call]

theorem channel_call (n : SimNetwork) (r : EndId) (p : Protocol) (c : Call) :
    (n.modify r fun t => t.call p c).channel r =
      {n.channel r with handed := (n.channel r).handed ++ c.marks} := by
  rw [channel_modify_self _ _ rfl, withReceiver, handed_call]
  rfl

/-- The pump of the endpoint moves on. -/
theorem channel_moved (n : SimNetwork) {a : Activity} (ha : a.at = some r) :
    channel {n with activity := a} r = {n.channel r with phase := a.phase} := by
  have hphase : phaseAt {n with activity := a} r = a.phase := if_pos ha
  rw [← hphase]
  rfl

/-- No pump, or that of another endpoint, runs. -/
theorem channel_left (n : SimNetwork) {a : Activity} (ha : a.at ≠ some r) :
    channel {n with activity := a} r = {n.channel r with phase := .idle} := by
  have hphase : phaseAt {n with activity := a} r = .idle := if_neg ha
  rw [← hphase]
  rfl

/-- What another endpoint's pump does before and after. -/
theorem channel_elsewhere {m : SimNetwork} {a : Activity} (hidle : n.phaseAt r = .idle)
    (ha : a.at ≠ some r) (hm : m.channel r = n.channel r) :
    channel {m with activity := a} r = n.channel r := by
  rw [channel_left m ha, hm, ← hidle]
  rfl

theorem pump_channel (n : SimNetwork) (r : EndId) :
    (n.pump r).channel r = {n.channel r with pumpScheduled := false, phase := .draining} := by
  unfold pump
  dsimp only
  rw [channel_moved _ rfl, channel_modify_self _ _ rfl]
  rfl

theorem pump_channel_ne (n : SimNetwork) (h : e ≠ r) (hidle : n.phaseAt r = .idle) :
    (n.pump e).channel r = n.channel r :=
  channel_elsewhere hidle (fun he => h (Option.some.inj he)) (modify_receiver_ne n h rfl fun _ => rfl)

theorem turn_channel (n : SimNetwork) (r : EndId) (p : Protocol) :
    (n.turn r p).channel r = (n.channel r).turn p.buffered := by
  unfold turn Channel.turn
  have hinbox : (n.channel r).inbox = (n.transport r).inbox := rfl
  rw [hinbox]
  cases hi : (n.transport r).inbox with
  | nil =>
    dsimp only
    rw [← hi]
    rfl
  | cons item rest =>
    have hpop := n.channel_modify_self r
      (f := fun t => {t with inbox := rest, popped := t.popped ++ [item]}) rfl
    by_cases hopen : (n.transport r).paused = false ∧ (n.transport r).closed = false
    · have hopen' : (n.channel r).paused = false ∧ (n.channel r).closed = false := hopen
      simp only [if_pos hopen, if_pos hopen']
      cases item with
      | eof =>
        dsimp only
        rw [channel_moved _ rfl, channel_call, hpop]
        rfl
      | data bytes =>
        cases p.buffered with
        | true =>
          dsimp only
          rw [channel_moved _ rfl, hpop]
          rfl
        | false =>
          dsimp only
          rw [channel_moved _ rfl, channel_call, hpop]
          rfl
    · have hopen' : ¬ ((n.channel r).paused = false ∧ (n.channel r).closed = false) := hopen
      simp only [if_neg hopen, if_neg hopen']
      rw [← hi]
      rfl

theorem turn_channel_ne (n : SimNetwork) (h : e ≠ r) (hidle : n.phaseAt r = .idle) (p : Protocol) :
    (n.turn e p).channel r = n.channel r := by
  have he : some e ≠ some r := fun hr => h (Option.some.inj hr)
  unfold turn
  split
  · exact channel_elsewhere hidle (by simp [Activity.at]) rfl
  next item rest _ =>
    have hpop : (n.modify e fun t =>
        {t with inbox := rest, popped := t.popped ++ [item]}).channel r = n.channel r :=
      modify_receiver_ne n h rfl fun _ => rfl
    split
    · dsimp only
      split
      · exact channel_elsewhere hidle he ((modify_receiver_ne _ h rfl fun _ => rfl).trans hpop)
      · exact channel_elsewhere hidle he hpop
      · exact channel_elsewhere hidle he ((modify_receiver_ne _ h rfl fun _ => rfl).trans hpop)
    · exact channel_elsewhere hidle (by simp [Activity.at]) rfl

theorem fill_channel (n : SimNetwork) (r : EndId) (p : Protocol) (view : List UInt8) :
    (n.fill r p view).channel r =
      {n.channel r with phase :=
        if view ≠ [] ∧ (n.channel r).closed = false then .buffering view else .draining} := by
  have hclosed : (n.channel r).closed = (n.transport r).closed := rfl
  unfold fill
  rw [hclosed]
  split
  · rw [channel_moved _ rfl, channel_call]
    simp [Call.marks, Activity.phase]
  · exact channel_moved n rfl

theorem fill_channel_ne (n : SimNetwork) (h : e ≠ r) (hidle : n.phaseAt r = .idle) (p : Protocol)
    (view : List UInt8) : (n.fill e p view).channel r = n.channel r := by
  have he : some e ≠ some r := fun hr => h (Option.some.inj hr)
  unfold fill
  split
  · exact channel_elsewhere hidle he (modify_receiver_ne n h rfl fun _ => rfl)
  · exact channel_elsewhere hidle he rfl

theorem buffer_channel (n : SimNetwork) (r : EndId) (p : Protocol) (view : List UInt8)
    (size : Nat) : (n.buffer r p view size).channel r =
      if 0 < min size view.length then
        {n.channel r with
          handed := (n.channel r).handed ++ (view.take (min size view.length)).map some
          phase := .updating (view.drop (min size view.length))}
      else {n.channel r with phase := .idle} := by
  unfold buffer
  dsimp only
  split
  · rw [channel_moved _ rfl, channel_call]
    rfl
  · exact channel_left n (by simp [Activity.at])

theorem buffer_channel_ne (n : SimNetwork) (h : e ≠ r) (hidle : n.phaseAt r = .idle) (p : Protocol)
    (view : List UInt8) (size : Nat) : (n.buffer e p view size).channel r = n.channel r := by
  have he : some e ≠ some r := fun hr => h (Option.some.inj hr)
  unfold buffer
  dsimp only
  split
  · exact channel_elsewhere hidle he (modify_receiver_ne n h rfl fun _ => rfl)
  · exact channel_elsewhere hidle (by simp [Activity.at]) rfl

/-! ### Lifecycle -/

theorem connectionLost_channel (n : SimNetwork) (r e : EndId) (p : Protocol)
    (error : Option String) : (n.connectionLost e p error).channel r = n.channel r := by
  unfold connectionLost
  by_cases h : e = r
  · subst h
    rw [channel_call]
    simp [Call.marks]
  · exact modify_receiver_ne n h rfl fun _ => rfl

theorem kill_channel (n : SimNetwork) (r : EndId) :
    (n.kill r).channel r = {n.channel r with closing := true, closed := true} :=
  n.channel_modify_self r (f := fun t => {t with closing := true, closed := true}) rfl

theorem kill_channel_peer (n : SimNetwork) (r : EndId) :
    (n.kill r.peer).channel r = {n.channel r with senderClosing := true, senderClosed := true} :=
  n.channel_modify_peer r (f := fun t => {t with closing := true, closed := true}) rfl

theorem kill_channel_apart (n : SimNetwork) (h : e.pair ≠ r.pair) :
    (n.kill e).channel r = n.channel r :=
  channel_modify_apart n h fun t => {t with closing := true, closed := true}

/-- Closing the receiver. -/
theorem close_channel (n : SimNetwork) (r : EndId) :
    (n.close r).channel r = {n.channel r with closing := true} := by
  have hmark := n.channel_modify_self r (f := fun t => {t with closing := true}) rfl
  unfold close
  split
  next h =>
    have hclosing : (n.channel r).closing = true := h
    rw [← hclosing]
  · dsimp only
    rw [channel_callSoon _ (by simp)]
    split
    · rw [hmark]
      rfl
    · rw [send_channel_ne _ r.peer_ne.symm, hmark]
      rfl

theorem close_channel_apart (n : SimNetwork) (h : e.pair ≠ r.pair) :
    (n.close e).channel r = n.channel r := by
  have hmark := channel_modify_apart n h fun t => {t with closing := true}
  have hne : e ≠ r.peer := fun he => h (by rw [he, EndId.peer_pair])
  unfold close
  split
  · rfl
  · dsimp only
    rw [channel_callSoon _ (by simp)]
    split
    · exact hmark
    · rw [send_channel_ne _ hne]
      exact hmark

/-- Closing the sender: the end of the stream is sent, unless the receiver is closing. -/
theorem close_channel_peer (n : SimNetwork) (r : EndId)
    (hopen : (n.channel r).senderClosing = false) :
    ((n.channel r).closing = true ∧
      (n.close r.peer).channel r = {n.channel r with senderClosing := true}) ∨
    (((n.channel r).held ≠ [] ∨ (n.channel r).blocked = true) ∧
      (n.close r.peer).channel r =
        {n.channel r with
          accepted := (n.channel r).accepted ++ [.eof], held := (n.channel r).held ++ [.eof]
          senderClosing := true}) ∨
    ((n.channel r).held = [] ∧ (n.channel r).blocked = false ∧
      ∃ arrival, (n.channel r).lastArrival ≤ arrival ∧ (n.close r.peer).channel r =
        {Channel.assign {n.channel r with accepted := (n.channel r).accepted ++ [.eof]} .eof arrival
          with senderClosing := true}) := by
  have hopen' : (n.transport r.peer).closing = false := hopen
  have hmark := n.channel_modify_peer r (f := fun t => {t with closing := true}) rfl
  unfold close
  rw [hopen', if_neg (by decide)]
  dsimp only
  rw [channel_callSoon _ (by simp), EndId.peer_peer, modify_of_ne r.peer_ne.symm]
  split
  next hclosing => exact .inl ⟨hclosing, hmark⟩
  · rcases send_channel (n.modify r.peer fun t => {t with closing := true}) r .eof with
      ⟨hheld, heq⟩ | ⟨hheld, hb, arrival, hle, heq⟩
    · rw [hmark] at hheld heq
      exact .inr (.inl ⟨hheld, heq⟩)
    · rw [hmark] at hheld hb hle heq
      exact .inr (.inr ⟨hheld, hb, arrival, hle, heq⟩)

end SimNetwork
end Simloom
