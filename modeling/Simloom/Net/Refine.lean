import Simloom.Net.Direction

/-! The network refines its channels.

Each step of the network is a run of the channel towards any endpoint (`step_follows`),
and the acts of the run are as gentle as the step: none heals a direction that stays
blocked, none breaks off a delivery that the step does not break off (`Unbroken`), and
where the step spares both endpoints and strands nothing (`Spared`, `Flushed`) all of
them are smooth. -/
namespace Simloom
open Theory

/-! ### Gentle acts -/

/-- What an act may do: under `still` no healing, under `strict` smooth acts only. -/
def Channel.Gentle (strict still : Prop) (c : Channel) (a : Act) : Prop :=
  c.Calm a ∧ (still → ¬ Channel.Heals a) ∧ (strict → c.Smooth a)

/-- Acts that can never break off a delivery and heal nothing. -/
def Act.mild : Act → Bool
  | .heal _ => false
  | .buffer _ => false
  | .raised => false
  | _ => true

theorem Channel.gentle_mild {strict still : Prop} {c : Channel} {a : Act} (ha : a.mild = true)
    (hs : strict → c.Smooth a) : c.Gentle strict still a := by
  refine ⟨fun h => ?_, fun _ h => ?_, hs⟩
  · rcases h with rfl | rfl <;> cases ha
  · obtain ⟨times, rfl⟩ := h
    cases ha

namespace SimNetwork

/-! ### Conditions on steps -/

/-- No delivery to `r` is broken off with a part of its chunk left: no call of the pump
raises there, and `get_buffer` returns no empty buffer. -/
def Unbroken (r : EndId) (n : SimNetwork) : Event → Prop
  | .raised => (n.phaseAt r).view = []
  | .bufferReturned size => size = 0 → (n.phaseAt r).view = []
  | _ => True

/-- Neither endpoint is reset, aborted or crashed, and the receiver `r` is not closed
from outside, nor does its protocol fail. -/
def Spared (r : EndId) (n : SimNetwork) : Event → Prop
  | .close e => e = r → (n.transport e).closing = true
  | .forceClose e _ => e.pair ≠ r.pair
  | .crash host => (n.transport r).owner ≠ host ∧ (n.transport r.peer).owner ≠ host
  | .ready (.resetByPeer e) => e.pair ≠ r.pair
  | .bufferReturned size => n.activity.at = some r → 0 < size
  | .raised => n.activity.at ≠ some r
  | _ => True

/-- The sender is finalized only when it holds nothing back, and writes nothing after
an end of stream. -/
def Flushed (r : EndId) (n : SimNetwork) : Event → Prop
  | .write e data => e = r.peer → data ≠ [] → (n.transport e).closing = false →
    Item.eof ∉ (n.transport e).accepted
  | .ready (.finalize e) => e = r.peer → (n.transport e).held = []
  | _ => True

instance (r : EndId) (n : SimNetwork) (ev : Event) : Decidable (Unbroken r n ev) := by
  cases ev with
  | raised => exact inferInstanceAs (Decidable ((n.phaseAt r).view = []))
  | bufferReturned size => exact inferInstanceAs (Decidable (size = 0 → (n.phaseAt r).view = []))
  | _ => exact isTrue trivial

instance (r : EndId) (n : SimNetwork) (ev : Event) : Decidable (Spared r n ev) := by
  cases ev with
  | close e => exact inferInstanceAs (Decidable (e = r → (n.transport e).closing = true))
  | forceClose e error => exact inferInstanceAs (Decidable (e.pair ≠ r.pair))
  | crash host =>
    exact inferInstanceAs (Decidable ((n.transport r).owner ≠ host ∧ (n.transport r.peer).owner ≠ host))
  | ready cb =>
    cases cb with
    | resetByPeer e => exact inferInstanceAs (Decidable (e.pair ≠ r.pair))
    | _ => exact isTrue trivial
  | bufferReturned size => exact inferInstanceAs (Decidable (n.activity.at = some r → 0 < size))
  | raised => exact inferInstanceAs (Decidable (n.activity.at ≠ some r))
  | _ => exact isTrue trivial

instance (r : EndId) (n : SimNetwork) (ev : Event) : Decidable (Flushed r n ev) := by
  cases ev with
  | write e data =>
    exact inferInstanceAs (Decidable (e = r.peer → data ≠ [] → (n.transport e).closing = false →
      Item.eof ∉ (n.transport e).accepted))
  | ready cb =>
    cases cb with
    | finalize e => exact inferInstanceAs (Decidable (e = r.peer → (n.transport e).held = []))
    | _ => exact isTrue trivial
  | _ => exact isTrue trivial

variable {n n' : SimNetwork} {e r : EndId} {strict still : Prop}

/-- The network has gone from `n` to `n'` as the channel towards `r` can. -/
def Follows (strict still : Prop) (r : EndId) (n n' : SimNetwork) : Prop :=
  Transition.Reaches Channel.step (Channel.Gentle strict still) (n.channel r) (n'.channel r)

namespace Follows

theorem stay (h : n'.channel r = n.channel r) : Follows strict still r n n' := by
  unfold Follows
  rw [h]
  exact .refl _

theorem act {a : Act} (hs : (n.channel r).step a = some (n'.channel r))
    (hg : (n.channel r).Gentle strict still a) : Follows strict still r n n' := .one hs hg

/-- One act that is mild and smooth. -/
theorem mild {a : Act} (hs : (n.channel r).step a = some (n'.channel r)) (ha : a.mild = true)
    (hg : strict → (n.channel r).Smooth a) : Follows strict still r n n' :=
  act hs (Channel.gentle_mild ha hg)

theorem trans {m : SimNetwork} (h : Follows strict still r n m)
    (h' : Follows strict still r m n') : Follows strict still r n n' :=
  Transition.Reaches.trans h h'

end Follows

/-! ### What the program does -/

/-- An item is sent towards `r`: data may not come after an end of stream. -/
theorem send_follows (h : n.WellFormed) (hmade : r.pair < n.pairs)
    (hopen : (n.transport r.peer).closing = false) (item : Item)
    (hitem : strict → item ≠ .eof → Item.eof ∉ (n.transport r.peer).accepted) :
    Follows strict still r n (n.send r.peer item) := by
  have hestablished : (n.channel r).established = true := decide_eq_true hmade
  have hsender : (n.channel r).senderClosed = false := h.open_sender hopen
  rcases n.send_channel r item with ⟨hheld, heq⟩ | ⟨hheld, hb, arrival, hle, heq⟩
  · refine .mild (a := .hold item) ?_ rfl hitem
    rw [heq]
    exact if_pos ⟨hestablished, hsender, hheld⟩
  · refine .mild (a := .transmit item arrival) ?_ rfl hitem
    rw [heq]
    exact if_pos ⟨hestablished, hsender, hheld, hb, hle⟩

theorem write_follows (h : n.WellFormed) (he : e.pair < n.pairs) (data : List UInt8)
    (hdata : strict → e = r.peer → data ≠ [] → (n.transport e).closing = false →
      Item.eof ∉ (n.transport e).accepted) :
    Follows strict still r n (n.write e data) := by
  have hcount : (n.countSend data.length).WellFormed :=
    { h with }
  unfold write
  split
  · exact .stay rfl
  next hsend =>
    obtain ⟨hopen, hne⟩ := not_or.mp hsend
    have hopen' := Bool.eq_false_of_not_eq_true hopen
    by_cases hp : e = r.peer
    · subst hp
      have hsent : Follows strict still r (n.countSend data.length) _ :=
        send_follows (r := r) hcount he hopen' (.data data) fun hs _ => hdata hs rfl hne hopen'
      exact hsent
    · exact .stay (send_channel_ne _ hp _)

theorem writeEof_follows (h : n.WellFormed) (he : e.pair < n.pairs) :
    Follows strict still r n (n.writeEof e) := by
  unfold writeEof
  split
  · exact .stay rfl
  next hopen =>
    by_cases hp : e = r.peer
    · subst hp
      exact send_follows (r := r) h he (Bool.eq_false_of_not_eq_true hopen) .eof
        fun _ hne => absurd rfl hne
    · exact .stay (send_channel_ne _ hp _)

/-- The sender closes: the end of the stream first, then the mark. -/
theorem close_follows_peer (h : n.WellFormed) (hmade : r.pair < n.pairs) :
    Follows strict still r n (n.close r.peer) := by
  cases hc : (n.channel r).senderClosing with
  | true =>
    have hc' : (n.transport r.peer).closing = true := hc
    unfold close
    rw [hc', if_pos rfl]
    exact .stay rfl
  | false =>
    have hestablished : (n.channel r).established = true := decide_eq_true hmade
    have hsender : (n.channel r).senderClosed = false := h.open_sender hc
    have hgentle {c : Channel} {a : Act} (ha : a = .hold .eof ∨ ∃ t, a = .transmit .eof t) :
        c.Gentle strict still a := by
      rcases ha with rfl | ⟨_, rfl⟩ <;> exact Channel.gentle_mild rfl fun _ hne => absurd rfl hne
    have hmark {c : Channel} (hc : Item.eof ∈ c.accepted) : c.Gentle strict still .senderClose :=
      Channel.gentle_mild rfl fun _ => .inl hc
    rcases n.close_channel_peer r hc with ⟨hrc, heq⟩ | ⟨hheld, heq⟩ | ⟨hheld, hb, arrival, hle, heq⟩
    · refine .mild (a := .senderClose) ?_ rfl fun _ => .inr hrc
      rw [heq]
      rfl
    · have hhold : (n.channel r).step (.hold .eof) = some {n.channel r with
          accepted := (n.channel r).accepted ++ [.eof], held := (n.channel r).held ++ [.eof]} :=
        if_pos ⟨hestablished, hsender, hheld⟩
      refine Transition.Reaches.trans (.one hhold (hgentle (.inl rfl))) ?_
      rw [heq]
      exact .one (e := .senderClose) rfl (hmark (by simp))
    · have hsend : (n.channel r).step (.transmit .eof arrival) = some (Channel.assign
          {n.channel r with accepted := (n.channel r).accepted ++ [.eof]} .eof arrival) :=
        if_pos ⟨hestablished, hsender, hheld, hb, hle⟩
      refine Transition.Reaches.trans (.one hsend (hgentle (.inr ⟨_, rfl⟩))) ?_
      rw [heq]
      exact .one (e := .senderClose) rfl (hmark (by simp [Channel.assign]))

theorem close_follows (h : n.WellFormed) (he : e.pair < n.pairs)
    (hshut : strict → e = r → (n.transport e).closing = true) :
    Follows strict still r n (n.close e) := by
  rcases e.eq_or_peer r with rfl | rfl | hp
  · cases hc : (n.transport e).closing with
    | true =>
      unfold close
      rw [hc, if_pos rfl]
      exact .stay rfl
    | false =>
      refine .mild (a := .shut) ?_ rfl fun hs => ?_
      · rw [close_channel]
        rfl
      · rw [hshut hs rfl] at hc
        cases hc
  · exact close_follows_peer h he
  · exact .stay (close_channel_apart n hp)

/-- An endpoint is marked dead. -/
theorem kill_follows (h : strict → e.pair ≠ r.pair) : Follows strict still r n (n.kill e) := by
  rcases e.eq_or_peer r with rfl | rfl | hp
  · refine .mild (a := .cut) ?_ rfl fun hs => absurd rfl (h hs)
    rw [kill_channel]
    rfl
  · have hnever (hs : strict) : False := h hs rfl
    refine Transition.Reaches.trans (b := {n.channel r with senderClosing := true})
      (.one (e := .senderClose) rfl (Channel.gentle_mild rfl fun hs => (hnever hs).elim)) ?_
    rw [kill_channel_peer]
    exact .one (e := .senderGone) rfl (Channel.gentle_mild rfl fun hs => (hnever hs).elim)
  · exact .stay (kill_channel_apart n hp)

theorem forceClose_follows (h : strict → e.pair ≠ r.pair) (error : Option String) :
    Follows strict still r n (n.forceClose e error) := by
  unfold forceClose
  split
  · exact .stay rfl
  · exact (kill_follows h).trans (.stay (channel_callSoon _ (by simp)))

theorem resetByPeer_follows (h : strict → e.pair ≠ r.pair) :
    Follows strict still r n (n.resetByPeer e) := by
  unfold resetByPeer
  split
  · exact .stay rfl
  · exact (kill_follows h).trans (.stay (connectionLost_channel _ r e _ _))

theorem crash_follows (host : String)
    (h : strict → (n.transport r).owner ≠ host ∧ (n.transport r.peer).owner ≠ host) :
    Follows strict still r n (n.crash host) := by
  have hdrop (m : SimNetwork) (e : EndId) (hm : strict → e.pair ≠ r.pair) :
      Follows strict still r m (m.dropOnCrash e) := by
    unfold dropOnCrash
    dsimp only
    split
    · exact kill_follows hm
    · exact (kill_follows hm).trans (.stay (channel_callSoon _ (by simp)))
  have howner (m : SimNetwork) (e x : EndId) :
      ((m.dropOnCrash e).transport x).owner = (m.transport x).owner := by
    have hkill := modify_kept (·.owner) m e
      (f := fun t => {t with closing := true, closed := true}) (fun _ => rfl) x
    unfold dropOnCrash
    dsimp only
    split <;> exact hkill
  refine (List.foldlRecOn (motive := fun m => Follows strict still r n m ∧
    ∀ x, (m.transport x).owner = (n.transport x).owner) n.live _ ⟨.stay rfl, fun _ => rfl⟩
    fun m hm e _ => ?_).1
  split
  next hhost =>
    have hapart (hs : strict) : e.pair ≠ r.pair := by
      intro hp
      rcases e.eq_or_peer r with rfl | rfl | hne
      · exact (h hs).1 (hm.2 _ ▸ hhost)
      · exact (h hs).2 (hm.2 _ ▸ hhost)
      · exact hne hp
    exact ⟨hm.1.trans (hdrop m e hapart), fun x => (howner m e x).trans (hm.2 x)⟩
  · exact hm

theorem resetConnections_follows (a b : String) :
    Follows strict still r n (n.resetConnections a b) := by
  refine List.foldlRecOn (motive := Follows strict still r n) n.live _ (.stay rfl) fun m hm e _ => ?_
  split
  · exact hm.trans (.stay (channel_callSoon _ (by simp)))
  · exact hm

theorem connectedPair_follows (h : n.WellFormed) (clientOwner serverOwner : String)
    (client server : Protocol) :
    Follows strict still r n (n.connectedPair clientOwner serverOwner client server) := by
  generalize hm : n.connectedPair clientOwner serverOwner client server = m
  by_cases hr : r.pair = n.pairs
  · -- a new channel: nothing was under way, and no pump runs
    have hidle : n.phaseAt r = .idle := by
      refine if_neg fun ha => ?_
      have := h.activity r ha
      omega
    have hunmade : (n.channel r).established = false := decide_eq_false (by omega)
    have hblank (x : EndId) (hx : x.pair = n.pairs) :
        ∃ owner p c, m.transport x = (SimTransport.new owner p).call p c ∧ c.marks = [] := by
      obtain ⟨pair, side⟩ := x
      obtain rfl : pair = n.pairs := hx
      subst hm
      cases side
      · exact ⟨clientOwner, client, .connectionMade, by simp [connectedPair, SimNetwork.modify], rfl⟩
      · exact ⟨serverOwner, server, .connectionMade, by simp [connectedPair, SimNetwork.modify], rfl⟩
    obtain ⟨owner, p, c, htr, hmarks⟩ := hblank r hr
    obtain ⟨owner', p', c', hpeer, _⟩ := hblank r.peer hr
    have hhanded : (m.transport r).handed = [] := by
      rw [htr, handed_call, hmarks]
      rfl
    have hpairs : m.pairs = n.pairs + 1 := by
      subst hm
      rfl
    have hchannel : m.channel r = (n.channel r).fresh (m.isBlockedFrom r.peer) := by
      have hestablished : decide (r.pair < m.pairs) = true := decide_eq_true (by omega)
      have hrest : m.now = n.now ∧ m.alarms r = n.alarms r ∧
          m.ready.count (.pump r) = n.ready.count (.pump r) ∧ m.phaseAt r = n.phaseAt r := by
        subst hm
        exact ⟨rfl, rfl, rfl, rfl⟩
      obtain ⟨hnow, halarms, hpumps, hphase⟩ := hrest
      simp only [channel, hestablished, hnow, halarms, hpumps, hphase, hhanded]
      rw [htr, hpeer]
      rfl
    refine .mild (a := .connect (m.isBlockedFrom r.peer)) ?_ rfl fun _ => trivial
    rw [hchannel]
    exact if_pos ⟨hunmade, hidle⟩
  · have hother (x : EndId) (hx : x.pair = r.pair) : m.transport x = n.transport x := by
      have hne (side : Bool) : x ≠ ⟨n.pairs, side⟩ := by
        rintro rfl
        exact hr hx.symm
      rw [← hm]
      simp only [connectedPair, modify_of_ne (hne _)]
    have hmade : decide (r.pair < m.pairs) = decide (r.pair < n.pairs) := by
      have hpairs : m.pairs = n.pairs + 1 := by
        subst hm
        rfl
      rw [hpairs]
      congr 1
      exact propext ⟨fun hlt => by omega, fun hlt => by omega⟩
    apply Follows.stay
    have hrest : m.blocked = n.blocked ∧ m.now = n.now ∧ m.alarms r = n.alarms r ∧
        m.ready.count (.pump r) = n.ready.count (.pump r) ∧ m.phaseAt r = n.phaseAt r := by
      subst hm
      exact ⟨rfl, rfl, rfl, rfl, rfl⟩
    obtain ⟨hblocked, hnow, halarms, hpumps, hphase⟩ := hrest
    have hb : m.isBlockedFrom r.peer = n.isBlockedFrom r.peer := by
      simp only [isBlockedFrom, isBlocked, hblocked, hother r.peer rfl, EndId.peer_peer,
        hother r rfl]
    simp only [channel, hmade, hnow, halarms, hpumps, hphase, hb, hother r rfl, hother r.peer rfl]

/-! ### Faults -/

theorem block_follows (src dst : String) : Follows strict still r n (n.block src dst) := by
  have hchannel : (n.block src dst).channel r =
      {n.channel r with blocked := (n.block src dst).isBlockedFrom r.peer} := rfl
  cases hb : (n.block src dst).isBlockedFrom r.peer with
  | true =>
    refine .mild (a := .block) ?_ rfl fun _ => trivial
    rw [hchannel, hb]
    rfl
  | false =>
    -- what is not blocked after was not before
    have hbefore : n.isBlockedFrom r.peer = false := by
      have hnot := of_decide_eq_false hb
      exact decide_eq_false fun hmem => hnot (List.mem_insert_of_mem hmem)
    apply Follows.stay
    rw [hchannel, hb, ← hbefore]
    rfl

theorem partition_follows (groupA groupB : List String) :
    Follows strict still r n (n.partition groupA groupB) :=
  List.foldlRecOn (motive := Follows strict still r n) (groupA.product groupB) _ (.stay rfl)
    fun _ hm _ _ => hm.trans ((block_follows _ _).trans (block_follows _ _))

/-- Blocks are lifted and everything held in an open direction is released. -/
theorem unblocked_follows (h : n.WellFormed) {blocked : List (String × String)}
    (hsub : ∀ edge ∈ blocked, edge ∈ n.blocked)
    (hstill : still → {n with blocked := blocked}.release.isBlockedFrom r.peer = true) :
    Follows strict still r n {n with blocked := blocked}.release := by
  generalize hm : ({n with blocked := blocked} : SimNetwork) = m at hstill ⊢
  have hwell : m.WellFormed := by
    subst hm
    exact { h with }
  have hchannel : m.channel r = {n.channel r with blocked := m.isBlockedFrom r.peer} := by
    subst hm
    rfl
  have hafter : m.release.isBlockedFrom r.peer = m.isBlockedFrom r.peer :=
    m.release_sends.isBlockedFrom r.peer
  cases hb : m.isBlockedFrom r.peer with
  | true =>
    have hbefore : n.isBlockedFrom r.peer = true := by
      subst hm
      exact decide_eq_true (hsub _ (of_decide_eq_true hb))
    apply Follows.stay
    rw [release, foldl_flushHeld_idle m r m.live fun _ => .inl hb, hchannel, hb, ← hbefore]
    rfl
  | false =>
    rw [hb] at hchannel hafter
    have hgentle (times : List ℚ) : (n.channel r).Gentle strict still (.heal times) := by
      refine ⟨fun ha => ?_, fun hs => ?_, fun _ => trivial⟩
      · rcases ha with ha | ha <;> cases ha
      · rw [hstill hs] at hafter
        cases hafter
    cases hc : (n.channel r).senderClosed with
    | true =>
      refine .act (a := .heal []) ?_ (hgentle [])
      have hidle := foldl_flushHeld_idle m r m.live fun _ => .inr (.inl (by rw [hchannel]; exact hc))
      rw [release, hidle, hchannel]
      exact if_pos hc
    | false =>
      obtain ⟨times, ht⟩ := release_channel hwell r (by rw [hchannel]) (by rw [hchannel]; exact hc)
      refine .act (a := .heal times) ?_ (hgentle times)
      rw [← ht, hchannel]
      exact if_neg (by rw [hc]; decide)

/-! ### What the loop does -/

theorem alarms_erase_self (n : SimNetwork) (r : EndId) (t : ℚ) :
    alarms {n with timers := n.timers.erase (t, .arrive r)} r = (n.alarms r).erase t := by
  refine filterMap_erase_some (by simp) (fun a ha => ?_) n.timers
  obtain ⟨hcb, ht⟩ := Option.ite_none_right_eq_some.mp ha
  rw [← hcb, ← Option.some.inj ht]

theorem alarms_erase_ne (n : SimNetwork) (h : e ≠ r) (t : ℚ) :
    alarms {n with timers := n.timers.erase (t, .arrive e)} r = n.alarms r :=
  filterMap_erase_none (by simp [h]) n.timers

theorem timer_follows {t : ℚ} (hmem : (t, Callback.arrive e) ∈ n.timers) (hdue : t ≤ n.now) :
    Follows strict still r n
      ({n with timers := n.timers.erase (t, .arrive e)}.arrive e) := by
  by_cases he : e = r
  · subst he
    have halarm : t ∈ (n.channel e).arrivals :=
      List.mem_filterMap.mpr ⟨_, hmem, if_pos rfl⟩
    refine .mild (a := .arrive t) ?_ rfl fun _ => trivial
    have hchannel : channel {n with timers := n.timers.erase (t, .arrive e)} e =
        {n.channel e with arrivals := (n.channel e).arrivals.erase t} := by
      have := n.alarms_erase_self e t
      simp only [channel, this]
      rfl
    rw [arrive_channel, hchannel]
    exact if_pos ⟨halarm, hdue⟩
  · have hchannel : channel {n with timers := n.timers.erase (t, .arrive e)} r = n.channel r := by
      have := n.alarms_erase_ne he t
      simp only [channel, this]
      rfl
    exact .trans (.stay hchannel) (.stay (arrive_channel_ne _ he))

theorem channel_ready_erase (n : SimNetwork) {cb : Callback} (h : cb ≠ .pump r) :
    channel {n with ready := n.ready.erase cb} r = n.channel r := by
  have hcount : (n.ready.erase cb).count (.pump r) = n.ready.count (.pump r) :=
    List.count_erase_of_ne (Ne.symm h)
  show {n.channel r with pumps := (n.ready.erase cb).count (.pump r)} = n.channel r
  rw [hcount]
  rfl

theorem pump_follows (h : n.WellFormed) (hmem : Callback.pump e ∈ n.ready)
    (hidle : n.activity = .idle) :
    Follows strict still r n ({n with ready := n.ready.erase (.pump e)}.pump e) := by
  have hphase : n.phaseAt r = .idle := if_neg (by rw [hidle]; simp [Activity.at])
  by_cases he : e = r
  · subst he
    have hpumps : 0 < (n.channel e).pumps := List.count_pos_iff.mpr hmem
    have hmade : (n.channel e).established = true := decide_eq_true (h.ready _ hmem).1
    refine .mild (a := .pump) ?_ rfl fun _ => trivial
    have hchannel : channel {n with ready := n.ready.erase (.pump e)} e =
        {n.channel e with pumps := (n.channel e).pumps - 1} := by
      show {n.channel e with pumps := (n.ready.erase (.pump e)).count (Callback.pump e)} = _
      rw [List.count_erase_self]
      rfl
    rw [pump_channel, hchannel]
    exact if_pos ⟨hmade, hphase, hpumps⟩
  · have hrest : channel {n with ready := n.ready.erase (.pump e)} r = n.channel r :=
      n.channel_ready_erase (by simpa using he)
    exact .trans (.stay hrest) (.stay (pump_channel_ne _ he hphase))

/-- An endpoint that closed becomes closed. -/
theorem finalize_follows (hclosing : (n.transport e).closing = true)
    (hheld : strict → e = r.peer → (n.transport e).held = []) :
    Follows strict still r n (n.finalize e) := by
  unfold finalize
  split
  · exact .stay rfl
  · refine .trans ?_ (.stay (connectionLost_channel _ r e _ none))
    rcases e.eq_or_peer r with rfl | rfl | hp
    · refine .mild (a := .finish) ?_ rfl fun _ => hclosing
      exact congrArg some (n.channel_modify_self e (f := fun t => {t with closed := true}) rfl).symm
    · refine .mild (a := .senderGone) ?_ rfl fun hs => hheld hs rfl
      exact congrArg some (n.channel_modify_peer r (f := fun t => {t with closed := true}) rfl).symm
    · exact .stay (channel_modify_apart n hp fun t => {t with closed := true})

/-! ### The pump's steps -/

theorem phaseAt_self {a : Activity} (h : n.activity = a) (ha : a.at = some r) :
    (n.channel r).phase = a.phase := by
  subst h
  exact if_pos ha

theorem phaseAt_ne {a : Activity} (h : n.activity = a) (ha : a.at = some e) (he : e ≠ r) :
    n.phaseAt r = .idle := by
  subst h
  refine if_neg fun hr => he ?_
  rw [ha] at hr
  exact Option.some.inj hr

theorem advance_follows (hs : n.advance = some n') : Follows strict still r n n' := by
  unfold advance at hs
  split at hs
  next e p ha =>
    obtain rfl := Option.some.inj hs
    by_cases he : e = r
    · subst he
      refine .mild (a := .next p.buffered) ?_ rfl fun _ => trivial
      rw [turn_channel]
      exact if_pos (phaseAt_self ha rfl)
    · exact .stay (turn_channel_ne n he (phaseAt_ne ha rfl he) p)
  next e p view ha =>
    obtain rfl := Option.some.inj hs
    by_cases he : e = r
    · subst he
      refine .mild (a := .fill) ?_ rfl fun _ => trivial
      have hphase : (n.channel e).phase = .filling view := phaseAt_self ha rfl
      rw [fill_channel, Channel.step, hphase]
    · exact .stay (fill_channel_ne n he (phaseAt_ne ha rfl he) p view)
  next => cases hs

theorem returned_follows (hs : n.returned = some n') : Follows strict still r n n' := by
  unfold returned at hs
  split at hs
  next e p ha =>
    obtain rfl := Option.some.inj hs
    by_cases he : e = r
    · subst he
      refine .mild (a := .returned) ?_ rfl fun _ => trivial
      have hphase : (n.channel e).phase = .receiving := phaseAt_self ha rfl
      rw [channel_moved (a := .draining e p) n rfl, Channel.step, hphase]
      rfl
    · exact .stay (channel_elsewhere (phaseAt_ne ha rfl he) (fun hr => he (Option.some.inj hr)) rfl)
  next e p view ha =>
    obtain rfl := Option.some.inj hs
    by_cases he : e = r
    · subst he
      refine .mild (a := .returned) ?_ rfl fun _ => trivial
      have hphase : (n.channel e).phase = .updating view := phaseAt_self ha rfl
      rw [channel_moved (a := .filling e p view) n rfl, Channel.step, hphase]
      rfl
    · exact .stay (channel_elsewhere (phaseAt_ne ha rfl he) (fun hr => he (Option.some.inj hr)) rfl)
  next => cases hs

theorem eofReturned_follows (h : n.WellFormed) {p : Protocol} (ha : n.activity = .ending e p)
    (keepOpen : Bool) : Follows strict still r n (n.eofReturned e p keepOpen) := by
  have hmade : e.pair < n.pairs := h.activity e (by rw [ha]; rfl)
  by_cases he : e = r
  · subst he
    refine .mild (a := .ended keepOpen) ?_ rfl fun _ => trivial
    have hphase : (n.channel e).phase = .ending := phaseAt_self ha rfl
    unfold eofReturned
    dsimp only
    rw [channel_moved (a := .draining e p) _ rfl, Channel.step, if_pos hphase]
    cases keepOpen with
    | true =>
      rw [if_pos rfl, Bool.not_true, Bool.or_false]
      rfl
    | false =>
      rw [if_neg (by decide), close_channel, Bool.not_false, Bool.or_true]
      rfl
  · have hidle := phaseAt_ne ha rfl he
    have hat : (Activity.draining e p).at ≠ some r := fun hr => he (Option.some.inj hr)
    cases keepOpen with
    | true => exact .stay (channel_elsewhere hidle hat rfl)
    | false =>
      refine .trans (close_follows h hmade fun _ hr => absurd hr he) (.stay ?_)
      refine channel_elsewhere ?_ hat rfl
      have hactivity : (n.close e).activity = n.activity := by
        unfold close
        split
        · rfl
        · dsimp only
          split
          · rfl
          · exact (send_sends _ e .eof).activity
      exact phaseAt_ne (hactivity.trans ha) rfl he

theorem buffer_follows {p : Protocol} {view : List UInt8} (ha : n.activity = .buffering e p view)
    (size : Nat) (hb : Unbroken r n (.bufferReturned size))
    (hsize : strict → n.activity.at = some r → 0 < size) :
    Follows strict still r n (n.buffer e p view size) := by
  by_cases he : e = r
  · subst he
    have hphase : (n.channel e).phase = .buffering view := phaseAt_self ha rfl
    refine .act (a := .buffer size) ?_ ⟨fun hzero => ?_, fun _ hh => ?_, fun hs => ?_⟩
    · rw [buffer_channel, Channel.step, hphase]
      dsimp only
      split <;> rfl
    · rcases hzero with hzero | hzero
      · cases hzero
      · exact hb (Act.buffer.inj hzero)
    · obtain ⟨_, hh⟩ := hh
      cases hh
    · exact hsize hs (by rw [ha]; rfl)
  · exact .stay (buffer_channel_ne n he (phaseAt_ne ha rfl he) p view size)

theorem raised_follows (hs : n.raised = some n') (hb : (n.phaseAt r).view = [])
    (hother : strict → n.activity.at ≠ some r) : Follows strict still r n n' := by
  have hrest : n' = {n with activity := .idle} := by
    unfold raised at hs
    split at hs
    all_goals first
      | cases hs; done
      | exact (Option.some.inj hs).symm
  subst hrest
  by_cases hr : n.activity.at = some r
  · refine .act (a := .raised) ?_ ⟨fun _ => hb, fun _ hh => ?_, fun hst => absurd hr (hother hst)⟩
    · have hphase : (n.channel r).phase = n.activity.phase := phaseAt_self rfl hr
      rw [channel_left (a := .idle) n (by simp [Activity.at]), Channel.step, hphase]
      unfold raised at hs
      split at hs
      all_goals first
        | cases hs; done
        | rename_i ha; rw [ha]; rfl
    · obtain ⟨_, hh⟩ := hh
      cases hh
  · exact .stay (channel_elsewhere (if_neg hr) (by simp [Activity.at]) rfl)

/-! ### Steps -/

theorem ready_follows (h : n.WellFormed) (hidle : n.activity = .idle) {cb : Callback}
    (hcb : cb ∈ n.ready) (hspared : strict → Spared r n (.ready cb))
    (hflushed : strict → Flushed r n (.ready cb)) :
    Follows strict still r n ({n with ready := n.ready.erase cb}.callback cb) := by
  have htaken (hne : cb ≠ .pump r) :
      Follows strict still r n {n with ready := n.ready.erase cb} :=
    .stay (n.channel_ready_erase hne)
  cases cb with
  | arrive e => exact absurd rfl (h.ready _ hcb).2
  | pump e => exact pump_follows h hcb hidle
  | finalize e =>
    exact (htaken (by simp)).trans (finalize_follows (h.finalizing e hcb) hflushed)
  | resetByPeer e => exact (htaken (by simp)).trans (resetByPeer_follows hspared)
  | connectionLost e p error =>
    exact (htaken (by simp)).trans (.stay (connectionLost_channel _ r e p error))

/-- **Each step of the network is a run of every channel**, as gentle as the step. -/
theorem step_follows {ev : Event} (h : n.WellFormed) (hs : n.step ev = some n')
    (hb : Unbroken r n ev) (hspared : strict → Spared r n ev) (hflushed : strict → Flushed r n ev)
    (hstill : still → n'.isBlockedFrom r.peer = true) : Follows strict still r n n' := by
  cases ev with
  | connect clientOwner serverOwner client server =>
    exact (call_some hs).2 ▸ connectedPair_follows h clientOwner serverOwner client server
  | write e data =>
    obtain ⟨_, he, rfl⟩ := callOn_some hs
    exact write_follows h he data hflushed
  | writeEof e =>
    obtain ⟨_, he, rfl⟩ := callOn_some hs
    exact writeEof_follows h he
  | close e =>
    obtain ⟨_, he, rfl⟩ := callOn_some hs
    exact close_follows h he hspared
  | forceClose e error =>
    obtain ⟨_, he, rfl⟩ := callOn_some hs
    exact forceClose_follows hspared error
  | pauseReading e =>
    obtain ⟨_, he, rfl⟩ := callOn_some hs
    by_cases hr : e = r
    · subst hr
      refine .mild (a := .pause) ?_ rfl fun _ => trivial
      exact congrArg some (n.channel_modify_self e (f := fun t => {t with paused := true}) rfl).symm
    · exact .stay (modify_receiver_ne n hr rfl fun _ => rfl)
  | resumeReading e =>
    obtain ⟨_, he, rfl⟩ := callOn_some hs
    by_cases hr : e = r
    · subst hr
      refine .mild (a := .resume) ?_ rfl fun _ => trivial
      unfold resumeReading
      rw [schedulePump_channel, channel_modify_self _ _ rfl]
      rfl
    · refine .trans (.stay (modify_receiver_ne n hr rfl fun _ => rfl))
        (.stay (schedulePump_channel_ne _ hr))
  | setProtocol e p =>
    obtain ⟨_, he, rfl⟩ := callOn_some hs
    apply Follows.stay
    by_cases hr : e = r
    · subst hr
      exact n.channel_modify_self e (f := fun t => {t with protocol := p}) rfl
    · exact modify_receiver_ne n hr rfl fun _ => rfl
  | block src dst => exact (call_some hs).2 ▸ block_follows src dst
  | partition groupA groupB => exact (call_some hs).2 ▸ partition_follows groupA groupB
  | unblock src dst =>
    obtain rfl := (call_some hs).2
    exact unblocked_follows h (fun edge hedge => (List.mem_filter.mp hedge).1) hstill
  | heal =>
    obtain rfl := (call_some hs).2
    exact unblocked_follows h (fun edge hedge => absurd hedge List.not_mem_nil) hstill
  | resetConnections a b => exact (call_some hs).2 ▸ resetConnections_follows a b
  | crash host => exact (call_some hs).2 ▸ crash_follows host hspared
  | shape change => exact (call_some hs).2 ▸ .stay rfl
  | tick t =>
    obtain ⟨hc, hs⟩ := Option.ite_none_right_eq_some.mp hs
    obtain rfl := Option.some.inj hs
    exact .mild (a := .tick t) (if_pos hc.2) rfl fun _ => trivial
  | ready cb =>
    obtain ⟨hc, hs⟩ := Option.ite_none_right_eq_some.mp hs
    exact Option.some.inj hs ▸ ready_follows h hc.1 hc.2 hspared hflushed
  | timer t cb =>
    obtain ⟨hc, hs⟩ := Option.ite_none_right_eq_some.mp hs
    obtain ⟨e, rfl, _⟩ := h.timers _ hc.2.1
    exact Option.some.inj hs ▸ timer_follows hc.2.1 hc.2.2
  | advance => exact advance_follows hs
  | returned => exact returned_follows hs
  | eofReturned keepOpen =>
    simp only [step] at hs
    split at hs
    next e p ha => exact Option.some.inj hs ▸ eofReturned_follows h ha keepOpen
    next => cases hs
  | bufferReturned size =>
    simp only [step] at hs
    split at hs
    next e p view ha => exact Option.some.inj hs ▸ buffer_follows ha size hb hspared
    next => cases hs
  | raised => exact raised_follows hs hb hspared

end SimNetwork
end Simloom
