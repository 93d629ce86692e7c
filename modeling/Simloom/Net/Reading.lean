import Simloom.Net.WellFormed

/-! The reading side of an endpoint.

Nearly everything that happens in the network leaves every inbox, pause and pump as it
was, hands nothing over and opens nothing (`Eases`). What is left are the two calls that
stop and resume reading, arrivals, and the pump. -/
namespace Simloom
open Theory

/-- The calls by which a transport hands over what arrived. -/
def Call.reading : Call → Bool
  | .dataReceived _ | .getBuffer _ | .bufferUpdated _ | .eofReceived => true
  | .connectionMade | .connectionLost _ => false

namespace SimTransport

/-- The calls that handed something over. -/
def reads (t : SimTransport) : List (Protocol × Call) := t.calls.filter fun c => c.2.reading

/-- What reading depends on, and what was read. -/
def intake (t : SimTransport) : List Item × Bool × Bool × List (Protocol × Call) :=
  (t.inbox, t.paused, t.pumpScheduled, t.reads)

theorem reads_call (t : SimTransport) (p : Protocol) (c : Call) :
    (t.call p c).reads = t.reads ++ if c.reading then [(p, c)] else [] := by
  cases hc : c.reading <;> simp [reads, call, List.filter_append, hc]

theorem intake_call {c : Call} (h : c.reading = false) (t : SimTransport) (p : Protocol) :
    (t.call p c).intake = t.intake := by
  simp only [intake, reads_call, h]
  simp [call]

theorem intake_eq {t u : SimTransport} (h : u.intake = t.intake) :
    u.inbox = t.inbox ∧ u.paused = t.paused ∧ u.pumpScheduled = t.pumpScheduled ∧
      u.reads = t.reads := by
  simpa [intake] using h

end SimTransport

namespace SimNetwork
variable {n n' : SimNetwork} {e x : EndId}

/-! ### What leaves reading alone -/

/-- No inbox, pause or pump is touched, nothing is handed over and no endpoint opened. -/
structure Eases (n n' : SimNetwork) : Prop where
  activity : n'.activity = n.activity
  pumps : ∀ e, n'.ready.count (.pump e) = n.ready.count (.pump e)
  intake : ∀ e, (n'.transport e).intake = (n.transport e).intake
  closed : ∀ e, (n.transport e).closed = true → (n'.transport e).closed = true

namespace Eases

theorem refl (n : SimNetwork) : Eases n n := ⟨rfl, fun _ => rfl, fun _ => rfl, fun _ h => h⟩

theorem trans {m : SimNetwork} (h : Eases n m) (h' : Eases m n') : Eases n n' :=
  ⟨h'.activity.trans h.activity, fun e => (h'.pumps e).trans (h.pumps e),
    fun e => (h'.intake e).trans (h.intake e), fun e hc => h'.closed e (h.closed e hc)⟩

theorem modify (n : SimNetwork) (x : EndId) {f : SimTransport → SimTransport}
    (hf : ∀ t, (f t).intake = t.intake) (hc : ∀ t, t.closed = true → (f t).closed = true) :
    Eases n (n.modify x f) := by
  refine ⟨rfl, fun _ => rfl, modify_kept _ n x hf, fun e he => ?_⟩
  by_cases hx : e = x
  · rw [hx, modify_self]
    exact hc _ (hx ▸ he)
  · rw [modify_of_ne hx]
    exact he

theorem callSoon (n : SimNetwork) {cb : Callback} (h : ∀ e, cb ≠ .pump e) :
    Eases n (n.callSoon cb) := by
  refine ⟨rfl, fun e => ?_, fun _ => rfl, fun _ hc => hc⟩
  have hcb : [cb].count (.pump e) = 0 :=
    List.count_eq_zero.mpr fun hmem => h e (List.mem_singleton.mp hmem).symm
  show (n.ready ++ [cb]).count (.pump e) = _
  rw [List.count_append, hcb, Nat.add_zero]

/-- A callback other than a pump leaves the queue. -/
theorem taken (n : SimNetwork) (cb : Callback) (h : ∀ e, cb ≠ .pump e) :
    Eases n {n with ready := n.ready.erase cb} :=
  ⟨rfl, fun e => List.count_erase_of_ne (h e).symm, fun _ => rfl, fun _ hc => hc⟩

theorem transmit (n : SimNetwork) (x : EndId) (item : Item) : Eases n (n.transmit x item) := by
  obtain ⟨arrival, drawn, delayed, _, heq⟩ := n.transmit_eq x item
  have hm : Eases n (n.modify x.peer (awaiting item arrival)) :=
    modify n x.peer (fun _ => rfl) fun _ hc => hc
  rw [heq]
  exact ⟨hm.activity, hm.pumps, hm.intake, hm.closed⟩

theorem send (n : SimNetwork) (x : EndId) (item : Item) : Eases n (n.send x item) := by
  have haccept : Eases n (n.modify x fun t => {t with accepted := t.accepted ++ [item]}) :=
    modify n x (fun _ => rfl) fun _ hc => hc
  unfold SimNetwork.send
  dsimp only
  split
  · exact haccept.trans (modify _ x (fun _ => rfl) fun _ hc => hc)
  · exact haccept.trans (transmit _ x item)

theorem flush (x : EndId) (items : List Item) (n : SimNetwork) : Eases n (flush x items n) := by
  induction items generalizing n with
  | nil => exact refl n
  | cons item rest ih =>
    unfold SimNetwork.flush
    split
    · exact refl n
    · have hpop : Eases n (n.modify x fun t => {t with held := rest}) :=
        modify n x (fun _ => rfl) fun _ hc => hc
      exact (hpop.trans (transmit _ x item)).trans (ih _)

/-- A loop over the live endpoints. -/
theorem foldl_live (n : SimNetwork) {f : SimNetwork → EndId → SimNetwork}
    (hf : ∀ m x, Eases m (f m x)) : Eases n (n.live.foldl f n) :=
  List.foldlRecOn n.live f (refl n) fun m hm x _ => hm.trans (hf m x)

theorem release (n : SimNetwork) : Eases n n.release := by
  refine foldl_live n fun m x => ?_
  unfold flushHeld
  split
  · exact refl m
  · exact flush x _ m

theorem close (n : SimNetwork) (x : EndId) : Eases n (n.close x) := by
  have hmark : Eases n (n.modify x fun t => {t with closing := true}) :=
    modify n x (fun _ => rfl) fun _ hc => hc
  unfold SimNetwork.close
  split
  · exact refl n
  · dsimp only
    split
    · exact hmark.trans (callSoon _ (by simp))
    · exact (hmark.trans (send _ x .eof)).trans (callSoon _ (by simp))

theorem kill (n : SimNetwork) (x : EndId) : Eases n (n.kill x) := by
  have hm : Eases n (n.modify x fun t => {t with closing := true, closed := true}) :=
    modify n x (fun _ => rfl) fun _ _ => rfl
  exact ⟨hm.activity, hm.pumps, hm.intake, hm.closed⟩

theorem connectionLost (n : SimNetwork) (x : EndId) (p : Protocol) (error : Option String) :
    Eases n (n.connectionLost x p error) :=
  modify n x (fun t => t.intake_call rfl p) fun _ hc => hc

theorem forceClose (n : SimNetwork) (x : EndId) (error : Option String) :
    Eases n (n.forceClose x error) := by
  unfold SimNetwork.forceClose
  split
  · exact refl n
  · exact (kill n x).trans (callSoon _ (by simp))

theorem finalize (n : SimNetwork) (x : EndId) : Eases n (n.finalize x) := by
  unfold SimNetwork.finalize
  split
  · exact refl n
  · have hm : Eases n (n.modify x fun t => {t with closed := true}) :=
      modify n x (fun _ => rfl) fun _ _ => rfl
    have hshut : Eases n ((n.modify x fun t => {t with closed := true}).forget x) :=
      ⟨hm.activity, hm.pumps, hm.intake, hm.closed⟩
    exact hshut.trans (connectionLost _ x _ none)

theorem resetByPeer (n : SimNetwork) (x : EndId) : Eases n (n.resetByPeer x) := by
  unfold SimNetwork.resetByPeer
  split
  · exact refl n
  · exact (kill n x).trans (connectionLost _ x _ _)

theorem crash (n : SimNetwork) (host : String) : Eases n (n.crash host) := by
  refine foldl_live n fun m x => ?_
  split
  · unfold dropOnCrash
    dsimp only
    split
    · exact kill m x
    · exact (kill m x).trans (callSoon _ (by simp))
  · exact refl m

theorem resetConnections (n : SimNetwork) (a b : String) : Eases n (n.resetConnections a b) := by
  refine foldl_live n fun m x => ?_
  split
  · exact callSoon m (by simp)
  · exact refl m

theorem partition (n : SimNetwork) (groupA groupB : List String) :
    Eases n (n.partition groupA groupB) :=
  List.foldlRecOn (groupA.product groupB) _ (refl n) fun _ hm _ _ =>
    ⟨hm.activity, hm.pumps, hm.intake, hm.closed⟩

theorem unblocked (n : SimNetwork) (blocked : List (String × String)) :
    Eases n {n with blocked := blocked}.release := by
  have hset : Eases n {n with blocked := blocked} := ⟨rfl, fun _ => rfl, fun _ => rfl, fun _ hc => hc⟩
  exact hset.trans (release _)

/-- A new pair has read nothing, as had the blank endpoints in its place. -/
theorem connectedPair (h : n.WellFormed) (clientOwner serverOwner : String)
    (client server : Protocol) :
    Eases n (n.connectedPair clientOwner serverOwner client server) := by
  have hintake (x : EndId) :
      ((n.connectedPair clientOwner serverOwner client server).transport x).intake =
        (n.transport x).intake ∧
      ((n.connectedPair clientOwner serverOwner client server).transport x).closed =
        (n.transport x).closed := by
    by_cases hx : x.pair = n.pairs
    · rw [h.unmade x (Nat.le_of_eq hx.symm)]
      obtain ⟨pair, server⟩ := x
      obtain rfl : pair = n.pairs := hx
      cases server <;>
        simp [SimNetwork.connectedPair, SimNetwork.modify, SimTransport.intake, SimTransport.reads,
          SimTransport.new, SimTransport.call, Call.reading]
    · have hne (server : Bool) : x ≠ ⟨n.pairs, server⟩ := fun hxe => hx (by rw [hxe])
      simp only [SimNetwork.connectedPair, modify_of_ne (hne _), and_self]
  exact ⟨rfl, fun _ => rfl, fun x => (hintake x).1, fun x hc => (hintake x).2.trans hc⟩

end Eases

/-! ### Steps that leave reading alone -/

/-- Neither a change of what is read, nor an arrival, nor a move of the pump. -/
def Event.aside : Event → Bool
  | .pauseReading _ | .resumeReading _ | .timer _ _ | .ready (.pump _) | .advance | .returned
  | .eofReturned _ | .bufferReturned _ | .raised => false
  | _ => true

theorem step_eases {ev : Event} (h : n.WellFormed) (hs : n.step ev = some n')
    (hev : ev.aside = true) : Eases n n' := by
  cases ev with
  | connect clientOwner serverOwner client server =>
    exact (call_some hs).2 ▸ .connectedPair h clientOwner serverOwner client server
  | write e data =>
    obtain ⟨_, _, rfl⟩ := callOn_some hs
    unfold SimNetwork.write
    split
    · exact .refl n
    · have hcount : Eases n (n.countSend data.length) :=
        ⟨rfl, fun _ => rfl, fun _ => rfl, fun _ hc => hc⟩
      exact hcount.trans (.send _ e (.data data))
  | writeEof e =>
    obtain ⟨_, _, rfl⟩ := callOn_some hs
    unfold SimNetwork.writeEof
    split
    · exact .refl n
    · exact .send n e .eof
  | close e => exact (callOn_some hs).2.2 ▸ .close n e
  | forceClose e error => exact (callOn_some hs).2.2 ▸ .forceClose n e error
  | setProtocol e p => exact (callOn_some hs).2.2 ▸ .modify n e (fun _ => rfl) fun _ hc => hc
  | block src dst => exact (call_some hs).2 ▸ ⟨rfl, fun _ => rfl, fun _ => rfl, fun _ hc => hc⟩
  | unblock src dst => exact (call_some hs).2 ▸ .unblocked n _
  | partition groupA groupB => exact (call_some hs).2 ▸ .partition n groupA groupB
  | heal => exact (call_some hs).2 ▸ .unblocked n []
  | resetConnections a b => exact (call_some hs).2 ▸ .resetConnections n a b
  | crash host => exact (call_some hs).2 ▸ .crash n host
  | shape change => exact (call_some hs).2 ▸ ⟨rfl, fun _ => rfl, fun _ => rfl, fun _ hc => hc⟩
  | tick t =>
    obtain ⟨_, hs⟩ := Option.ite_none_right_eq_some.mp hs
    exact Option.some.inj hs ▸ ⟨rfl, fun _ => rfl, fun _ => rfl, fun _ hc => hc⟩
  | ready cb =>
    obtain ⟨⟨_, hmem⟩, hs⟩ := Option.ite_none_right_eq_some.mp hs
    rw [← Option.some.inj hs]
    cases cb with
    | arrive e => exact absurd rfl (h.ready _ hmem).2
    | pump e => cases hev
    | finalize e => exact (Eases.taken n (.finalize e) (by simp)).trans (.finalize _ e)
    | resetByPeer e => exact (Eases.taken n (.resetByPeer e) (by simp)).trans (.resetByPeer _ e)
    | connectionLost e p error =>
      exact (Eases.taken n (.connectionLost e p error) (by simp)).trans
        (.connectionLost _ e p error)
  | pauseReading | resumeReading | timer | advance | returned | eofReturned | bufferReturned | raised =>
    cases hev

end SimNetwork
end Simloom
