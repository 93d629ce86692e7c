import Simloom.Net.Transport

/-! What holds of the network in every state.

Endpoints that were not made yet are blank, those that are not closed are listed as
live, and whatever the loop was asked to call concerns endpoints that were made. Each
operation keeps this (`WellFormed`), so every step does (`keeps_wellFormed`). -/
namespace Simloom
open Theory

theorem EndId.peer_eq_iff {a b : EndId} : a.peer = b ↔ a = b.peer := by
  constructor
  · rintro rfl
    exact a.peer_peer.symm
  · rintro rfl
    exact b.peer_peer

/-- The endpoint whose pump is running. -/
def Activity.at : Activity → Option EndId
  | .idle => none
  | .draining e _ => some e
  | .receiving e _ => some e
  | .ending e _ => some e
  | .filling e _ _ => some e
  | .buffering e _ _ => some e
  | .updating e _ _ => some e

namespace SimNetwork
variable {n : SimNetwork} {e : EndId}

theorem modify_self (n : SimNetwork) (e : EndId) (f : SimTransport → SimTransport) :
    (n.modify e f).transport e = f (n.transport e) := Function.update_self ..

theorem modify_of_ne {x : EndId} (h : x ≠ e) (n : SimNetwork) (f : SimTransport → SimTransport) :
    (n.modify e f).transport x = n.transport x := Function.update_of_ne h ..

/-- What `f` keeps of an endpoint, `modify` keeps of all. -/
theorem modify_kept {α : Type} (g : SimTransport → α) (n : SimNetwork) (e : EndId)
    {f : SimTransport → SimTransport} (hf : ∀ t, g (f t) = g t) (x : EndId) :
    g ((n.modify e f).transport x) = g (n.transport x) := by
  by_cases hx : x = e
  · rw [hx, modify_self, hf]
  · rw [modify_of_ne hx]

/-! ### Sending -/

/-- Sending touches queues only: lives, hosts and links stay as they are. -/
structure Sends (n n' : SimNetwork) : Prop where
  pairs : n'.pairs = n.pairs
  live : n'.live = n.live
  blocked : n'.blocked = n.blocked
  now : n'.now = n.now
  ready : n'.ready = n.ready
  activity : n'.activity = n.activity
  owner : ∀ e, (n'.transport e).owner = (n.transport e).owner
  closing : ∀ e, (n'.transport e).closing = (n.transport e).closing
  closed : ∀ e, (n'.transport e).closed = (n.transport e).closed

namespace Sends

theorem refl (n : SimNetwork) : Sends n n :=
  ⟨rfl, rfl, rfl, rfl, rfl, rfl, fun _ => rfl, fun _ => rfl, fun _ => rfl⟩

theorem trans {a b c : SimNetwork} (h : Sends a b) (h' : Sends b c) : Sends a c :=
  ⟨h'.pairs.trans h.pairs, h'.live.trans h.live, h'.blocked.trans h.blocked, h'.now.trans h.now,
    h'.ready.trans h.ready, h'.activity.trans h.activity,
    fun e => (h'.owner e).trans (h.owner e), fun e => (h'.closing e).trans (h.closing e),
    fun e => (h'.closed e).trans (h.closed e)⟩

theorem modify (n : SimNetwork) (e : EndId) {f : SimTransport → SimTransport}
    (ho : ∀ t, (f t).owner = t.owner) (hg : ∀ t, (f t).closing = t.closing)
    (hc : ∀ t, (f t).closed = t.closed) : Sends n (n.modify e f) :=
  ⟨rfl, rfl, rfl, rfl, rfl, rfl, modify_kept _ n e ho, modify_kept _ n e hg, modify_kept _ n e hc⟩

theorem isBlockedFrom {n' : SimNetwork} (h : Sends n n') (e : EndId) :
    n'.isBlockedFrom e = n.isBlockedFrom e := by
  simp only [SimNetwork.isBlockedFrom, isBlocked, h.blocked, h.owner]

end Sends

/-- What a transmission does to the peer. -/
def awaiting (item : Item) (arrival : ℚ) (peer : SimTransport) : SimTransport :=
  {peer with
    lastArrival := arrival, pending := peer.pending ++ [item]
    assigned := peer.assigned ++ [arrival]}

/-- An item under way: an arrival time that is not before the last, and its timer. -/
theorem transmit_eq (n : SimNetwork) (e : EndId) (item : Item) :
    ∃ arrival drawn delayed, (n.transport e.peer).lastArrival ≤ arrival ∧
      n.transmit e item = {n.modify e.peer (awaiting item arrival) with
        timers := n.timers ++ [(arrival, .arrive e.peer)], drawn := drawn
        chunksDelayedByLoss := delayed} := by
  have hdraw (src dst : String) : ∃ delay drawn delayed, n.drawDelay src dst =
      (delay, {n with drawn := drawn, chunksDelayedByLoss := delayed}) := by
    unfold drawDelay
    dsimp only
    split
    · exact ⟨_, _, _, rfl⟩
    · exact ⟨_, _, n.chunksDelayedByLoss, rfl⟩
  obtain ⟨delay, drawn, delayed, hd⟩ := hdraw (n.transport e).owner (n.transport e.peer).owner
  refine ⟨max (n.now + delay) (n.transport e.peer).lastArrival, drawn, delayed, le_max_right _ _, ?_⟩
  simp only [transmit, hd]
  rfl

theorem transmit_sends (n : SimNetwork) (e : EndId) (item : Item) : Sends n (n.transmit e item) := by
  obtain ⟨arrival, drawn, delayed, _, h⟩ := n.transmit_eq e item
  rw [h]
  exact ⟨rfl, rfl, rfl, rfl, rfl, rfl, modify_kept _ n e.peer fun _ => rfl,
    modify_kept _ n e.peer fun _ => rfl, modify_kept _ n e.peer fun _ => rfl⟩

theorem send_sends (n : SimNetwork) (e : EndId) (item : Item) : Sends n (n.send e item) := by
  have haccept : Sends n (n.modify e fun t => {t with accepted := t.accepted ++ [item]}) :=
    .modify n e (fun _ => rfl) (fun _ => rfl) fun _ => rfl
  unfold send
  dsimp only
  split
  · exact haccept.trans (.modify _ e (fun _ => rfl) (fun _ => rfl) fun _ => rfl)
  · exact haccept.trans (transmit_sends _ e item)

theorem flush_sends (e : EndId) (items : List Item) (n : SimNetwork) :
    Sends n (flush e items n) := by
  induction items generalizing n with
  | nil => exact .refl n
  | cons item rest ih =>
    unfold flush
    split
    · exact .refl n
    · have hpop : Sends n (n.modify e fun t => {t with held := rest}) :=
        .modify n e (fun _ => rfl) (fun _ => rfl) fun _ => rfl
      exact (hpop.trans (transmit_sends _ e item)).trans (ih _)

theorem flushHeld_sends (n : SimNetwork) (e : EndId) : Sends n (n.flushHeld e) := by
  unfold flushHeld
  split
  · exact .refl n
  · exact flush_sends e _ n

theorem release_sends (n : SimNetwork) : Sends n n.release :=
  List.foldlRecOn n.live flushHeld (.refl n) fun m hm e _ => hm.trans (flushHeld_sends m e)

/-! ### The invariant -/

structure WellFormed (n : SimNetwork) : Prop where
  unmade : ∀ e : EndId, n.pairs ≤ e.pair → n.transport e = .new rootWorld ⟨0, false⟩
  closed : ∀ e, (n.transport e).closed = true → (n.transport e).closing = true
  live : ∀ e : EndId, e.pair < n.pairs → (n.transport e).closed = false → e ∈ n.live
  listed : ∀ e ∈ n.live, e.pair < n.pairs
  ready : ∀ cb ∈ n.ready, cb.at.pair < n.pairs ∧ cb ≠ .arrive cb.at
  finalizing : ∀ e, .finalize e ∈ n.ready → (n.transport e).closing = true
  timers : ∀ t ∈ n.timers, ∃ e : EndId, t.2 = .arrive e ∧ e.pair < n.pairs
  activity : ∀ e, n.activity.at = some e → e.pair < n.pairs

theorem wellFormed_start (draws : Nat → Fin 64 × Fin 100) : (start draws).WellFormed where
  unmade := fun _ _ => rfl
  closed := fun _ h => Bool.noConfusion h
  live := fun _ h => absurd h (Nat.not_lt_zero _)
  listed := fun _ h => absurd h List.not_mem_nil
  ready := fun _ h => absurd h List.not_mem_nil
  finalizing := fun _ h => absurd h List.not_mem_nil
  timers := fun _ h => absurd h List.not_mem_nil
  activity := fun _ h => by cases h

namespace WellFormed

theorem open_sender (h : n.WellFormed) (hc : (n.transport e).closing = false) :
    (n.transport e).closed = false := by
  by_contra hclosed
  rw [h.closed e (Bool.eq_true_of_not_eq_false hclosed)] at hc
  cases hc

theorem modify (h : n.WellFormed) (he : e.pair < n.pairs) {f : SimTransport → SimTransport}
    (hclosed : (f (n.transport e)).closed = (n.transport e).closed)
    (hclosing : (n.transport e).closing = true → (f (n.transport e)).closing = true) :
    (n.modify e f).WellFormed where
  unmade := fun x hx => by
    have hne : x ≠ e := fun hxe => absurd he (Nat.not_lt.mpr (hxe ▸ hx))
    rw [modify_of_ne hne]
    exact h.unmade x hx
  closed := fun x hx => by
    by_cases hxe : x = e
    · rw [hxe, modify_self] at hx ⊢
      exact hclosing (h.closed e (hclosed ▸ hx))
    · rw [modify_of_ne hxe] at hx ⊢
      exact h.closed x hx
  live := fun x hx hopen => by
    refine h.live x hx ?_
    by_cases hxe : x = e
    · rw [hxe, modify_self] at hopen
      exact hxe ▸ hclosed ▸ hopen
    · rwa [modify_of_ne hxe] at hopen
  listed := h.listed
  ready := h.ready
  finalizing := fun x hx => by
    by_cases hxe : x = e
    · rw [hxe, modify_self]
      exact hclosing (h.finalizing e (hxe ▸ hx))
    · rw [modify_of_ne hxe]
      exact h.finalizing x hx
  timers := h.timers
  activity := h.activity

theorem callSoon (h : n.WellFormed) {cb : Callback} (hpair : cb.at.pair < n.pairs)
    (hcb : cb ≠ .arrive cb.at)
    (hfinal : ∀ e, cb = .finalize e → (n.transport e).closing = true) :
    (n.callSoon cb).WellFormed := by
  refine { h with ready := fun c hc => ?_, finalizing := fun x hx => ?_ }
  · rcases List.mem_append.mp hc with hc | hc
    · exact h.ready c hc
    · rw [List.mem_singleton.mp hc]
      exact ⟨hpair, hcb⟩
  · rcases List.mem_append.mp hx with hx | hx
    · exact h.finalizing x hx
    · exact hfinal x (List.mem_singleton.mp hx).symm

/-- Mark an endpoint closed and strike it off. -/
theorem shut (h : n.WellFormed) (he : e.pair < n.pairs) {f : SimTransport → SimTransport}
    (hclosed : (f (n.transport e)).closed = true) (hclosing : (f (n.transport e)).closing = true) :
    ((n.modify e f).forget e).WellFormed where
  unmade := fun x hx => by
    have hne : x ≠ e := fun hxe => absurd he (Nat.not_lt.mpr (hxe ▸ hx))
    show (n.modify e f).transport x = _
    rw [modify_of_ne hne]
    exact h.unmade x hx
  closed := fun x hx => by
    show ((n.modify e f).transport x).closing = true
    by_cases hxe : x = e
    · rw [hxe, modify_self, hclosing]
    · rw [modify_of_ne hxe]
      have hx' : ((n.modify e f).transport x).closed = true := hx
      rw [modify_of_ne hxe] at hx'
      exact h.closed x hx'
  live := fun x hx hopen => by
    have hopen' : ((n.modify e f).transport x).closed = false := hopen
    have hxe : x ≠ e := by
      rintro rfl
      rw [modify_self, hclosed] at hopen'
      cases hopen'
    rw [modify_of_ne hxe] at hopen'
    exact (List.mem_erase_of_ne hxe).mpr (h.live x hx hopen')
  listed := fun x hx => h.listed x (List.mem_of_mem_erase hx)
  ready := h.ready
  finalizing := fun x hx => by
    show ((n.modify e f).transport x).closing = true
    by_cases hxe : x = e
    · rw [hxe, modify_self, hclosing]
    · rw [modify_of_ne hxe]
      exact h.finalizing x hx
  timers := h.timers
  activity := h.activity

/-- The pump moves on. -/
theorem move (h : n.WellFormed) {a : Activity} (ha : ∀ e, a.at = some e → e.pair < n.pairs) :
    WellFormed {n with activity := a} :=
  { h with activity := ha }

theorem rest (h : n.WellFormed) : WellFormed {n with activity := .idle} :=
  h.move fun _ ha => by cases ha

theorem transmit (h : n.WellFormed) (he : e.pair < n.pairs) (item : Item) :
    (n.transmit e item).WellFormed := by
  obtain ⟨arrival, drawn, delayed, _, heq⟩ := n.transmit_eq e item
  have hm := h.modify (e := e.peer) (f := awaiting item arrival) he rfl id
  rw [heq]
  refine { hm with timers := fun t ht => ?_ }
  rcases List.mem_append.mp ht with ht | ht
  · exact h.timers t ht
  · exact ⟨e.peer, by rw [List.mem_singleton.mp ht], he⟩

theorem send (h : n.WellFormed) (he : e.pair < n.pairs) (item : Item) :
    (n.send e item).WellFormed := by
  have haccept := h.modify (f := fun t => {t with accepted := t.accepted ++ [item]}) he rfl id
  unfold SimNetwork.send
  dsimp only
  split
  · exact haccept.modify he rfl id
  · exact haccept.transmit he item

theorem flush (he : e.pair < n.pairs) {items : List Item} (h : n.WellFormed) :
    (flush e items n).WellFormed := by
  induction items generalizing n with
  | nil => exact h
  | cons item rest ih =>
    unfold SimNetwork.flush
    split
    · exact h
    · have hpop := h.modify (f := fun t => {t with held := rest}) he rfl id
      refine ih ?_ (hpop.transmit he item)
      rw [(transmit_sends _ e item).pairs]
      exact he

/-- A loop over the live endpoints, each step of which keeps what was made. -/
theorem foldl_live (h : n.WellFormed) {f : SimNetwork → EndId → SimNetwork}
    (hf : ∀ m e, m.WellFormed → e.pair < m.pairs → (f m e).WellFormed ∧ (f m e).pairs = m.pairs) :
    (n.live.foldl f n).WellFormed := by
  refine (List.foldlRecOn (motive := fun m => m.WellFormed ∧ m.pairs = n.pairs) n.live f
    ⟨h, rfl⟩ fun m hm e he => ?_).1
  have hmade : e.pair < m.pairs := hm.2 ▸ h.listed e he
  exact ⟨(hf m e hm.1 hmade).1, (hf m e hm.1 hmade).2.trans hm.2⟩

theorem release (h : n.WellFormed) : n.release.WellFormed := by
  refine h.foldl_live fun m e hm he => ⟨?_, (flushHeld_sends m e).pairs⟩
  unfold flushHeld
  split
  · exact hm
  · exact hm.flush he

theorem schedulePump (h : n.WellFormed) (he : e.pair < n.pairs) :
    (n.schedulePump e).WellFormed := by
  unfold SimNetwork.schedulePump
  split
  · exact (h.modify he rfl id).callSoon he (by simp [Callback.at]) fun _ hf => by cases hf
  · exact h

theorem arrive (h : n.WellFormed) (he : e.pair < n.pairs) : (n.arrive e).WellFormed := by
  unfold SimNetwork.arrive
  split
  · exact h
  · dsimp only
    split
    · exact h.schedulePump he
    · exact (h.modify he rfl id).schedulePump he

theorem close (h : n.WellFormed) (he : e.pair < n.pairs) : (n.close e).WellFormed := by
  unfold SimNetwork.close
  split
  · exact h
  · have hmark := h.modify (f := fun t => {t with closing := true}) he rfl fun _ => rfl
    have hclosing : ((n.modify e fun t => {t with closing := true}).transport e).closing = true := by
      rw [modify_self]
    dsimp only
    split
    · refine hmark.callSoon he (by simp [Callback.at]) fun x hx => ?_
      obtain rfl := Callback.finalize.inj hx
      exact hclosing
    · have hs := send_sends (n.modify e fun t => {t with closing := true}) e .eof
      refine (hmark.send he .eof).callSoon (hs.pairs ▸ he) (by simp [Callback.at]) fun x hx => ?_
      obtain rfl := Callback.finalize.inj hx
      rw [hs.closing, hclosing]

theorem kill (h : n.WellFormed) (he : e.pair < n.pairs) : (n.kill e).WellFormed :=
  h.shut he rfl rfl

theorem connectionLost (h : n.WellFormed) (he : e.pair < n.pairs) (p : Protocol)
    (error : Option String) : (n.connectionLost e p error).WellFormed := h.modify he rfl id

theorem resetByPeer (h : n.WellFormed) (he : e.pair < n.pairs) : (n.resetByPeer e).WellFormed := by
  unfold SimNetwork.resetByPeer
  split
  · exact h
  · exact (h.kill he).connectionLost he _ _

theorem dropOnCrash (h : n.WellFormed) (he : e.pair < n.pairs) : (n.dropOnCrash e).WellFormed := by
  unfold SimNetwork.dropOnCrash
  dsimp only
  split
  · exact h.kill he
  · exact (h.kill he).callSoon he (by simp [Callback.at]) fun _ hf => by cases hf

theorem crash (h : n.WellFormed) (host : String) : (n.crash host).WellFormed := by
  have hpairs (m : SimNetwork) (e : EndId) : (m.dropOnCrash e).pairs = m.pairs := by
    unfold SimNetwork.dropOnCrash
    dsimp only
    split <;> rfl
  refine h.foldl_live fun m e hm he => ?_
  split
  · exact ⟨hm.dropOnCrash he, hpairs m e⟩
  · exact ⟨hm, rfl⟩

theorem forceClose (h : n.WellFormed) (he : e.pair < n.pairs) (error : Option String) :
    (n.forceClose e error).WellFormed := by
  unfold SimNetwork.forceClose
  split
  · exact h
  · exact (h.kill he).callSoon he (by simp [Callback.at]) fun _ hf => by cases hf

theorem finalize (h : n.WellFormed) (he : e.pair < n.pairs)
    (hclosing : (n.transport e).closing = true) : (n.finalize e).WellFormed := by
  unfold SimNetwork.finalize
  split
  · exact h
  · have hshut := h.shut (f := fun t => {t with closed := true}) he rfl hclosing
    exact hshut.connectionLost he _ none

theorem pump (h : n.WellFormed) (he : e.pair < n.pairs) : (n.pump e).WellFormed := by
  have hm := h.modify (f := fun t => {t with pumpScheduled := false}) he rfl id
  refine hm.move fun x hx => ?_
  obtain rfl := Option.some.inj hx
  exact he

theorem connectedPair (h : n.WellFormed) (clientOwner serverOwner : String)
    (client server : Protocol) :
    (n.connectedPair clientOwner serverOwner client server).WellFormed := by
  have hold (x : EndId) (hx : x.pair ≠ n.pairs) :
      (n.connectedPair clientOwner serverOwner client server).transport x = n.transport x := by
    have hne (server : Bool) : x ≠ ⟨n.pairs, server⟩ := fun hxe => hx (by rw [hxe])
    simp only [SimNetwork.connectedPair, modify_of_ne (hne _)]
  have hnew (x : EndId) (hx : x.pair = n.pairs) :
      ((n.connectedPair clientOwner serverOwner client server).transport x).closed = false := by
    obtain ⟨pair, server⟩ := x
    obtain rfl : pair = n.pairs := hx
    cases server <;> simp [SimNetwork.connectedPair, SimNetwork.modify,
      SimTransport.new, SimTransport.call]
  have hlt {x : EndId} (hx : x.pair < n.pairs) : x.pair < n.pairs + 1 := Nat.lt_succ_of_lt hx
  refine ⟨fun x hx => ?_, fun x hx => ?_, fun x hx hopen => ?_, fun x hx => ?_, fun cb hcb => ?_,
    fun x hx => ?_, fun t ht => ?_, fun x hx => hlt (h.activity x hx)⟩
  · have hx' : n.pairs + 1 ≤ x.pair := hx
    rw [hold x (by omega)]
    exact h.unmade x (by omega)
  · by_cases hp : x.pair = n.pairs
    · rw [hnew x hp] at hx
      cases hx
    · rw [hold x hp] at hx ⊢
      exact h.closed x hx
  · have hx' : x.pair < n.pairs + 1 := hx
    by_cases hp : x.pair = n.pairs
    · obtain ⟨pair, server⟩ := x
      obtain rfl : pair = n.pairs := hp
      apply List.mem_append_right
      cases server <;> simp
    · rw [hold x hp] at hopen
      exact List.mem_append_left _ (h.live x (by omega) hopen)
  · rcases List.mem_append.mp hx with hx | hx
    · exact hlt (h.listed x hx)
    · rcases List.mem_pair.mp hx with rfl | rfl <;> exact Nat.lt_succ_self _
  · exact ⟨hlt (h.ready cb hcb).1, (h.ready cb hcb).2⟩
  · have hp : x.pair ≠ n.pairs := Nat.ne_of_lt (h.ready _ hx).1
    rw [hold x hp]
    exact h.finalizing x hx
  · obtain ⟨x, hx, hp⟩ := h.timers t ht
    exact ⟨x, hx, hlt hp⟩

theorem partition (h : n.WellFormed) (groupA groupB : List String) :
    (n.partition groupA groupB).WellFormed :=
  List.foldlRecOn (groupA.product groupB) _ h fun _ hm _ _ => { hm with }

theorem unblocked (h : n.WellFormed) (blocked : List (String × String)) :
    {n with blocked := blocked}.release.WellFormed :=
  release { h with }

theorem resetConnections (h : n.WellFormed) (a b : String) :
    (n.resetConnections a b).WellFormed := by
  refine h.foldl_live fun m e hm he => ?_
  split
  · exact ⟨hm.callSoon he (by simp [Callback.at]) (by simp), rfl⟩
  · exact ⟨hm, rfl⟩

theorem turn (h : n.WellFormed) (he : e.pair < n.pairs) (p : Protocol) :
    (n.turn e p).WellFormed := by
  have hat (x : EndId) (hx : some e = some x) : x.pair < n.pairs := Option.some.inj hx ▸ he
  unfold SimNetwork.turn
  split
  · exact h.rest
  next item rest _ =>
    split
    · have hpop := h.modify (f := fun t =>
        {t with inbox := rest, popped := t.popped ++ [item]}) he rfl id
      dsimp only
      split
      · exact (hpop.modify he rfl id).move hat
      · exact hpop.move hat
      · exact (hpop.modify he rfl id).move hat
    · exact h.rest

theorem fill (h : n.WellFormed) (he : e.pair < n.pairs) (p : Protocol) (view : List UInt8) :
    (n.fill e p view).WellFormed := by
  have hat (x : EndId) (hx : some e = some x) : x.pair < n.pairs := Option.some.inj hx ▸ he
  unfold SimNetwork.fill
  split
  · exact (h.modify he rfl id).move hat
  · exact h.move hat

theorem buffer (h : n.WellFormed) (he : e.pair < n.pairs) (p : Protocol) (view : List UInt8)
    (size : Nat) : (n.buffer e p view size).WellFormed := by
  have hat (x : EndId) (hx : some e = some x) : x.pair < n.pairs := Option.some.inj hx ▸ he
  unfold SimNetwork.buffer
  dsimp only
  split
  · exact (h.modify he rfl id).move hat
  · exact h.rest

theorem eofReturned (h : n.WellFormed) (he : e.pair < n.pairs) (p : Protocol) (keepOpen : Bool) :
    (n.eofReturned e p keepOpen).WellFormed := by
  have hpairs : (n.close e).pairs = n.pairs := by
    unfold SimNetwork.close
    split
    · rfl
    · dsimp only
      split
      · rfl
      · exact (send_sends _ e .eof).pairs
  have hat (x : EndId) (hx : some e = some x) : x.pair < n.pairs := Option.some.inj hx ▸ he
  unfold SimNetwork.eofReturned
  cases keepOpen with
  | true => exact h.move hat
  | false => exact (h.close he).move (hpairs ▸ hat)

/-- The loop takes a callback from the queue and calls it. -/
theorem readyCallback (h : n.WellFormed) {cb : Callback} (hcb : cb ∈ n.ready) :
    ({n with ready := n.ready.erase cb}.callback cb).WellFormed := by
  have hpair := (h.ready cb hcb).1
  have hrest : WellFormed {n with ready := n.ready.erase cb} :=
    { h with
      ready := fun c hc => h.ready c (List.mem_of_mem_erase hc)
      finalizing := fun x hx => h.finalizing x (List.mem_of_mem_erase hx) }
  cases cb with
  | arrive e => exact hrest.arrive hpair
  | pump e => exact hrest.pump hpair
  | finalize e => exact hrest.finalize hpair (h.finalizing e hcb)
  | resetByPeer e => exact hrest.resetByPeer hpair
  | connectionLost e p error => exact hrest.connectionLost hpair p error

theorem timerCallback (h : n.WellFormed) {t : ℚ} {cb : Callback} (ht : (t, cb) ∈ n.timers) :
    ({n with timers := n.timers.erase (t, cb)}.callback cb).WellFormed := by
  obtain ⟨e, rfl, hpair⟩ := h.timers _ ht
  have hrest : WellFormed {n with timers := n.timers.erase (t, .arrive e)} :=
    { h with timers := fun c hc => h.timers c (List.mem_of_mem_erase hc) }
  exact hrest.arrive hpair

end WellFormed

/-! ### Steps -/

theorem call_some {m n' : SimNetwork} (h : n.call m = some n') : n.activity.inProgram = true ∧ m = n' :=
  Option.ite_none_right_eq_some.mp h |>.imp_right Option.some.inj

theorem callOn_some {m n' : SimNetwork} (h : n.callOn e m = some n') :
    n.activity.inProgram = true ∧ e.pair < n.pairs ∧ m = n' := by
  obtain ⟨hc, hm⟩ := Option.ite_none_right_eq_some.mp h
  exact ⟨hc.1, hc.2, Option.some.inj hm⟩

/-- **Every step keeps the network well formed.** -/
theorem keeps_wellFormed (P : SimNetwork → Event → Prop) :
    Transition.Keeps step P WellFormed := by
  intro n ev n' _ h hs
  have hat {e x : EndId} (he : n.activity.at = some e) (hx : some e = some x) :
      x.pair < n.pairs := h.activity x (he.trans hx)
  cases ev with
  | connect clientOwner serverOwner client server =>
    exact (call_some hs).2 ▸ h.connectedPair clientOwner serverOwner client server
  | write e data =>
    obtain ⟨_, he, rfl⟩ := callOn_some hs
    unfold SimNetwork.write
    split
    · exact h
    · have hcount : (n.countSend data.length).WellFormed :=
        { h with }
      exact hcount.send he (.data data)
  | writeEof e =>
    obtain ⟨_, he, rfl⟩ := callOn_some hs
    unfold SimNetwork.writeEof
    split
    · exact h
    · exact h.send he .eof
  | close e =>
    obtain ⟨_, he, rfl⟩ := callOn_some hs
    exact h.close he
  | forceClose e error =>
    obtain ⟨_, he, rfl⟩ := callOn_some hs
    exact h.forceClose he error
  | pauseReading e =>
    obtain ⟨_, he, rfl⟩ := callOn_some hs
    exact h.modify he rfl id
  | resumeReading e =>
    obtain ⟨_, he, rfl⟩ := callOn_some hs
    exact (h.modify he rfl id).schedulePump he
  | setProtocol e p =>
    obtain ⟨_, he, rfl⟩ := callOn_some hs
    exact h.modify he rfl id
  | partition groupA groupB => exact (call_some hs).2 ▸ h.partition groupA groupB
  | unblock src dst => exact (call_some hs).2 ▸ h.unblocked _
  | heal => exact (call_some hs).2 ▸ h.unblocked []
  | resetConnections a b => exact (call_some hs).2 ▸ h.resetConnections a b
  | crash host => exact (call_some hs).2 ▸ h.crash host
  | block src dst | shape change =>
    exact (call_some hs).2 ▸
      { h with }
  | tick t =>
    obtain ⟨_, hs⟩ := Option.ite_none_right_eq_some.mp hs
    exact Option.some.inj hs ▸
      { h with }
  | ready cb =>
    obtain ⟨hc, hs⟩ := Option.ite_none_right_eq_some.mp hs
    exact Option.some.inj hs ▸ h.readyCallback hc.2
  | timer t cb =>
    obtain ⟨hc, hs⟩ := Option.ite_none_right_eq_some.mp hs
    exact Option.some.inj hs ▸ h.timerCallback hc.2.1
  | advance =>
    simp only [step, SimNetwork.advance] at hs
    split at hs
    next e p ha => exact Option.some.inj hs ▸ h.turn (h.activity e (by rw [ha]; rfl)) p
    next e p view ha => exact Option.some.inj hs ▸ h.fill (h.activity e (by rw [ha]; rfl)) p view
    next => cases hs
  | returned =>
    simp only [step, SimNetwork.returned] at hs
    split at hs
    next e p ha => exact Option.some.inj hs ▸ h.move fun x hx => hat (by rw [ha]; rfl) hx
    next e p view ha => exact Option.some.inj hs ▸ h.move fun x hx => hat (by rw [ha]; rfl) hx
    next => cases hs
  | eofReturned keepOpen =>
    simp only [step] at hs
    split at hs
    next e p ha => exact Option.some.inj hs ▸ h.eofReturned (h.activity e (by rw [ha]; rfl)) p keepOpen
    next => cases hs
  | bufferReturned size =>
    simp only [step] at hs
    split at hs
    next e p view ha =>
      exact Option.some.inj hs ▸ h.buffer (h.activity e (by rw [ha]; rfl)) p view size
    next => cases hs
  | raised =>
    simp only [step, SimNetwork.raised] at hs
    split at hs
    all_goals first
      | cases hs; done
      | exact Option.some.inj hs ▸ h.rest

end SimNetwork
end Simloom
