import Simloom.Net.WellFormed

/-! What is held is held by a block.

An endpoint holds chunks from a write behind a partition until a release flushes it. Most
operations start to hold nothing unless a block holds it (`Holds`), and a release leaves no live
endpoint that holds something in a free direction (`release_backed`). So in every state what a
live endpoint holds is behind a block (`keeps_backed`). -/
namespace Simloom
open Theory

namespace SimNetwork
variable {n n' : SimNetwork} {e x : EndId}

/-- Lives and hosts stay as they are, no direction is opened, and what is held was held before or
is behind a block. -/
structure Holds (n n' : SimNetwork) : Prop where
  live : n'.live = n.live
  closed : ∀ e, (n'.transport e).closed = (n.transport e).closed
  owner : ∀ e, (n'.transport e).owner = (n.transport e).owner
  blocked : ∀ link ∈ n.blocked, link ∈ n'.blocked
  held : ∀ e, (n'.transport e).held ≠ [] →
    (n.transport e).held ≠ [] ∨ n'.isBlockedFrom e = true

theorem isBlockedFrom_iff : n.isBlockedFrom e = true ↔
    ((n.transport e).owner, (n.transport e.peer).owner) ∈ n.blocked := decide_eq_true_iff

namespace Holds

theorem refl (n : SimNetwork) : Holds n n :=
  ⟨rfl, fun _ => rfl, fun _ => rfl, fun _ h => h, fun _ h => .inl h⟩

theorem isBlockedFrom (h : Holds n n') (hb : n.isBlockedFrom e = true) :
    n'.isBlockedFrom e = true := by
  rw [isBlockedFrom_iff, h.owner, h.owner]
  exact h.blocked _ (isBlockedFrom_iff.mp hb)

theorem trans {m : SimNetwork} (h : Holds n m) (h' : Holds m n') : Holds n n' where
  live := h'.live.trans h.live
  closed e := (h'.closed e).trans (h.closed e)
  owner e := (h'.owner e).trans (h.owner e)
  blocked link hl := h'.blocked link (h.blocked link hl)
  held e he := by
    rcases h'.held e he with hm | hb
    · exact (h.held e hm).imp_right h'.isBlockedFrom
    · exact .inr hb

theorem modify (n : SimNetwork) (x : EndId) {f : SimTransport → SimTransport}
    (hc : ∀ t, (f t).closed = t.closed) (ho : ∀ t, (f t).owner = t.owner)
    (hh : ∀ t, (f t).held = t.held) : Holds n (n.modify x f) :=
  ⟨rfl, modify_kept _ n x hc, modify_kept _ n x ho, fun _ h => h,
    fun e he => .inl (modify_kept _ n x hh e ▸ he)⟩

/-- Sending, as far as what is held is concerned. -/
theorem of_sends (h : Sends n n') (hh : ∀ e, (n'.transport e).held ≠ [] →
    (n.transport e).held ≠ [] ∨ n'.isBlockedFrom e = true) : Holds n n' :=
  ⟨h.live, h.closed, h.owner, fun _ hl => h.blocked ▸ hl, hh⟩

theorem transmit_held (n : SimNetwork) (x : EndId) (item : Item) (e : EndId) :
    ((n.transmit x item).transport e).held = (n.transport e).held := by
  obtain ⟨arrival, drawn, delayed, _, heq⟩ := n.transmit_eq x item
  rw [heq]
  exact modify_kept SimTransport.held n x.peer (f := awaiting item arrival) (fun _ => rfl) e

/-- An item is only held behind other held items or a block. -/
theorem send (n : SimNetwork) (x : EndId) (item : Item) : Holds n (n.send x item) := by
  have haccept : Sends n (n.modify x fun t => {t with accepted := t.accepted ++ [item]}) :=
    .modify n x (fun _ => rfl) (fun _ => rfl) fun _ => rfl
  have hkept (e : EndId) : ((n.modify x fun t => {t with accepted := t.accepted ++ [item]}).transport
      e).held = (n.transport e).held :=
    modify_kept SimTransport.held n x (f := fun t => {t with accepted := t.accepted ++ [item]})
      (fun _ => rfl) e
  refine .of_sends (send_sends n x item) fun e he => ?_
  rw [(send_sends n x item).isBlockedFrom]
  unfold SimNetwork.send at he
  dsimp only at he
  split at he
  next hbehind =>
    by_cases hx : e = x
    · subst hx
      rw [hkept, haccept.isBlockedFrom] at hbehind
      exact hbehind
    · rw [modify_of_ne hx, hkept] at he
      exact .inl he
  next =>
    rw [transmit_held, hkept] at he
    exact .inl he

theorem callSoon (n : SimNetwork) (cb : Callback) : Holds n (n.callSoon cb) :=
  ⟨rfl, fun _ => rfl, fun _ => rfl, fun _ h => h, fun _ h => .inl h⟩

theorem schedulePump (n : SimNetwork) (x : EndId) : Holds n (n.schedulePump x) := by
  unfold SimNetwork.schedulePump
  split
  · exact (modify n x (f := fun t => {t with pumpScheduled := true}) (fun _ => rfl) (fun _ => rfl)
      fun _ => rfl).trans (callSoon _ _)
  · exact refl n

theorem arrive (n : SimNetwork) (x : EndId) : Holds n (n.arrive x) := by
  unfold SimNetwork.arrive
  split
  · exact refl n
  · dsimp only
    split
    · exact schedulePump n x
    next item rest _ =>
      exact (modify n x (f := fun t => {t with
        pending := rest, inbox := t.inbox ++ [item], entered := t.entered ++ [n.now]})
        (fun _ => rfl) (fun _ => rfl) fun _ => rfl).trans (schedulePump _ x)

theorem close (n : SimNetwork) (x : EndId) : Holds n (n.close x) := by
  have hmark : Holds n (n.modify x fun t => {t with closing := true}) :=
    modify n x (fun _ => rfl) (fun _ => rfl) fun _ => rfl
  unfold SimNetwork.close
  split
  · exact refl n
  · dsimp only
    split
    · exact hmark.trans (callSoon _ _)
    · exact (hmark.trans (send _ x .eof)).trans (callSoon _ _)

theorem connectionLost (n : SimNetwork) (x : EndId) (p : Protocol) (error : Option String) :
    Holds n (n.connectionLost x p error) :=
  modify n x (fun _ => rfl) (fun _ => rfl) fun _ => rfl

/-- Another activity, queue or clock. -/
theorem same (ht : n'.transport = n.transport) (hl : n'.live = n.live)
    (hb : n'.blocked = n.blocked) : Holds n n' :=
  ⟨hl, fun _ => by rw [ht], fun _ => by rw [ht], fun _ h => hb ▸ h, fun _ h => .inl (ht ▸ h)⟩

theorem block (n : SimNetwork) (src dst : String) : Holds n (n.block src dst) :=
  ⟨rfl, fun _ => rfl, fun _ => rfl, fun _ h => List.mem_insert_of_mem h, fun _ h => .inl h⟩

theorem partition (n : SimNetwork) (groupA groupB : List String) :
    Holds n (n.partition groupA groupB) :=
  List.foldlRecOn (groupA.product groupB) _ (refl n) fun _ hm _ _ =>
    (hm.trans (block _ _ _)).trans (block _ _ _)

theorem resetConnections (n : SimNetwork) (a b : String) : Holds n (n.resetConnections a b) := by
  refine List.foldlRecOn n.live _ (refl n) fun m hm x _ => ?_
  split
  · exact hm.trans (callSoon m _)
  · exact hm

theorem turn (n : SimNetwork) (x : EndId) (p : Protocol) : Holds n (n.turn x p) := by
  unfold SimNetwork.turn
  split
  · exact same rfl rfl rfl
  next item rest _ =>
    have hpop : Holds n (n.modify x fun t => {t with inbox := rest, popped := t.popped ++ [item]}) :=
      modify n x (fun _ => rfl) (fun _ => rfl) fun _ => rfl
    split
    · dsimp only
      split
      · exact hpop.trans ((modify _ x (f := fun t => t.call p .eofReceived) (fun _ => rfl)
          (fun _ => rfl) fun _ => rfl).trans (same rfl rfl rfl))
      · exact hpop.trans (same rfl rfl rfl)
      next data _ _ =>
        exact hpop.trans ((modify _ x (f := fun t => t.call p (.dataReceived data)) (fun _ => rfl)
          (fun _ => rfl) fun _ => rfl).trans (same rfl rfl rfl))
    · exact same rfl rfl rfl

theorem fill (n : SimNetwork) (x : EndId) (p : Protocol) (view : List UInt8) :
    Holds n (n.fill x p view) := by
  unfold SimNetwork.fill
  split
  · exact (modify n x (f := fun t => t.call p (.getBuffer view.length)) (fun _ => rfl)
      (fun _ => rfl) fun _ => rfl).trans (same rfl rfl rfl)
  · exact same rfl rfl rfl

theorem buffer (n : SimNetwork) (x : EndId) (p : Protocol) (view : List UInt8) (size : Nat) :
    Holds n (n.buffer x p view size) := by
  unfold SimNetwork.buffer
  dsimp only
  split
  · exact (modify n x (f := fun t => t.call p (.bufferUpdated (view.take (min size view.length))))
      (fun _ => rfl) (fun _ => rfl) fun _ => rfl).trans (same rfl rfl rfl)
  · exact same rfl rfl rfl

end Holds

/-! ### Live endpoints -/

/-- The live endpoints are listed once and are open, and what they hold is behind a block. -/
structure Backed (n : SimNetwork) : Prop where
  nodup : n.live.Nodup
  «open» : ∀ e ∈ n.live, (n.transport e).closed = false
  held : ∀ e ∈ n.live, (n.transport e).held ≠ [] → n.isBlockedFrom e = true

/-- The live endpoints go on as they should, and no direction is opened. -/
structure Kept (n n' : SimNetwork) : Prop where
  backed : n.Backed → n'.Backed
  blocked : ∀ link ∈ n.blocked, link ∈ n'.blocked

theorem Holds.kept (h : Holds n n') : Kept n n' where
  backed hb :=
    { nodup := h.live ▸ hb.nodup
      «open» := fun e he => (h.closed e).trans (hb.open e (h.live ▸ he))
      held := fun e he hne => by
        rcases h.held e hne with hold | hblocked
        · exact h.isBlockedFrom (hb.held e (h.live ▸ he) hold)
        · exact hblocked }
  blocked := h.blocked

namespace Kept

theorem refl (n : SimNetwork) : Kept n n := ⟨id, fun _ h => h⟩

theorem trans {m : SimNetwork} (h : Kept n m) (h' : Kept m n') : Kept n n' :=
  ⟨fun hb => h'.backed (h.backed hb), fun link hl => h'.blocked link (h.blocked link hl)⟩

/-- An endpoint that closes leaves the list. -/
theorem forget (n : SimNetwork) (x : EndId) {f : SimTransport → SimTransport}
    (ho : ∀ t, (f t).owner = t.owner) : Kept n ((n.modify x f).forget x) := by
  refine ⟨fun h => ?_, fun _ hl => hl⟩
  have hmem (e : EndId) (he : e ∈ n.live.erase x) : e ≠ x ∧ e ∈ n.live :=
    h.nodup.mem_erase_iff.mp he
  refine ⟨h.nodup.erase x, fun e he => ?_, fun e he hne => ?_⟩
  · obtain ⟨hx, hl⟩ := hmem e he
    show ((n.modify x f).transport e).closed = false
    rw [modify_of_ne hx]
    exact h.open e hl
  · obtain ⟨hx, hl⟩ := hmem e he
    have hne' : ((n.modify x f).transport e).held ≠ [] := hne
    rw [modify_of_ne hx] at hne'
    have hb := h.held e hl hne'
    rw [isBlockedFrom_iff] at hb ⊢
    show (((n.modify x f).transport e).owner, ((n.modify x f).transport e.peer).owner) ∈ n.blocked
    rw [modify_kept SimTransport.owner n x ho, modify_kept SimTransport.owner n x ho]
    exact hb

theorem kill (n : SimNetwork) (x : EndId) : Kept n (n.kill x) := forget n x fun _ => rfl

theorem finalize (n : SimNetwork) (x : EndId) : Kept n (n.finalize x) := by
  unfold SimNetwork.finalize
  split
  · exact refl n
  · exact (forget n x (f := fun t => {t with closed := true}) fun _ => rfl).trans
      (Holds.connectionLost _ x _ none).kept

theorem resetByPeer (n : SimNetwork) (x : EndId) : Kept n (n.resetByPeer x) := by
  unfold SimNetwork.resetByPeer
  split
  · exact refl n
  · exact (kill n x).trans (Holds.connectionLost _ x _ _).kept

theorem forceClose (n : SimNetwork) (x : EndId) (error : Option String) :
    Kept n (n.forceClose x error) := by
  unfold SimNetwork.forceClose
  split
  · exact refl n
  · exact (kill n x).trans (Holds.callSoon _ _).kept

theorem crash (n : SimNetwork) (host : String) : Kept n (n.crash host) := by
  refine List.foldlRecOn n.live _ (refl n) fun m hm x _ => ?_
  split
  · unfold dropOnCrash
    dsimp only
    split
    · exact hm.trans (kill m x)
    · exact hm.trans ((kill m x).trans (Holds.callSoon _ _).kept)
  · exact hm

/-- A new pair is listed at the end, and holds nothing. -/
theorem connectedPair (hw : n.WellFormed) (clientOwner serverOwner : String)
    (client server : Protocol) :
    Kept n (n.connectedPair clientOwner serverOwner client server) := by
  refine ⟨fun h => ?_, fun _ hl => hl⟩
  have hfresh (side : Bool) : (⟨n.pairs, side⟩ : EndId) ∉ n.live :=
    fun hin => absurd (hw.listed _ hin) (Nat.lt_irrefl _)
  have hold (e : EndId) (he : e.pair ≠ n.pairs) :
      (n.connectedPair clientOwner serverOwner client server).transport e = n.transport e := by
    have hne (side : Bool) : e ≠ ⟨n.pairs, side⟩ := fun hx => he (by rw [hx])
    simp only [SimNetwork.connectedPair, modify_of_ne (hne _)]
  have hnew (side : Bool) :
      ((n.connectedPair clientOwner serverOwner client server).transport ⟨n.pairs, side⟩).closed =
        false ∧
      ((n.connectedPair clientOwner serverOwner client server).transport ⟨n.pairs, side⟩).held =
        [] := by
    cases side <;>
      simp [SimNetwork.connectedPair, SimNetwork.modify, SimTransport.new, SimTransport.call]
  have hcases (e : EndId) (he : e ∈ (n.connectedPair clientOwner serverOwner client server).live) :
      e ∈ n.live ∧ e.pair ≠ n.pairs ∨ ∃ side, e = ⟨n.pairs, side⟩ := by
    have hmem : e ∈ n.live ++ [⟨n.pairs, false⟩, ⟨n.pairs, true⟩] := he
    simp only [List.mem_append, List.mem_cons, List.not_mem_nil, or_false] at hmem
    rcases hmem with hl | rfl | rfl
    · exact .inl ⟨hl, Nat.ne_of_lt (hw.listed e hl)⟩
    · exact .inr ⟨_, rfl⟩
    · exact .inr ⟨_, rfl⟩
  refine ⟨?_, fun e he => ?_, fun e he hne => ?_⟩
  · show (n.live ++ [(⟨n.pairs, false⟩ : EndId), ⟨n.pairs, true⟩]).Nodup
    refine List.nodup_append.mpr ⟨h.nodup, by simp, fun e hl x hx hex => ?_⟩
    subst hex
    simp only [List.mem_cons, List.not_mem_nil, or_false] at hx
    rcases hx with rfl | rfl
    · exact hfresh _ hl
    · exact hfresh _ hl
  · rcases hcases e he with ⟨hl, hpair⟩ | ⟨side, rfl⟩
    · rw [hold e hpair]
      exact h.open e hl
    · exact (hnew side).1
  · rcases hcases e he with ⟨hl, hpair⟩ | ⟨side, rfl⟩
    · rw [hold e hpair] at hne
      have hb := isBlockedFrom_iff.mp (h.held e hl hne)
      rw [isBlockedFrom_iff, hold e hpair, hold e.peer hpair]
      exact hb
    · exact absurd (hnew side).2 hne

end Kept

/-! ### Releasing -/

theorem flush_other (e : EndId) (items : List Item) (n : SimNetwork) {x : EndId} (hx : x ≠ e) :
    ((flush e items n).transport x).held = (n.transport x).held := by
  induction items generalizing n with
  | nil => rfl
  | cons item rest ih =>
    unfold flush
    split
    · rfl
    · rw [ih, Holds.transmit_held, modify_of_ne hx]

/-- What an endpoint holds after a flush is behind a block. -/
theorem flush_done (e : EndId) (items : List Item) (n : SimNetwork)
    (hheld : (n.transport e).held = items) :
    ((flush e items n).transport e).held = [] ∨ (flush e items n).isBlockedFrom e = true := by
  induction items generalizing n with
  | nil => exact .inl hheld
  | cons item rest ih =>
    unfold flush
    split
    next hb => exact .inr hb
    next => exact ih _ (by rw [Holds.transmit_held, modify_self])

theorem flushHeld_done (n : SimNetwork) {x : EndId} (hx : (n.transport x).closed = false)
    (h : e = x ∨ (n.transport e).held = [] ∨ n.isBlockedFrom e = true) :
    ((n.flushHeld x).transport e).held = [] ∨ (n.flushHeld x).isBlockedFrom e = true := by
  unfold flushHeld
  rw [hx, if_neg (by decide)]
  by_cases he : e = x
  · subst he
    exact flush_done e _ n rfl
  · rw [flush_other x _ n he, (flush_sends x _ n).isBlockedFrom]
    exact h.resolve_left he

theorem release_done (live : List EndId) (n : SimNetwork)
    (hopen : ∀ x ∈ live, (n.transport x).closed = false)
    (h : e ∈ live ∨ (n.transport e).held = [] ∨ n.isBlockedFrom e = true) :
    ((live.foldl flushHeld n).transport e).held = [] ∨
      (live.foldl flushHeld n).isBlockedFrom e = true := by
  induction live generalizing n with
  | nil => exact h.resolve_left List.not_mem_nil
  | cons x rest ih =>
    have hx := hopen x List.mem_cons_self
    refine ih _ (fun y hy => ?_) ?_
    · rw [(flushHeld_sends n x).closed]
      exact hopen y (List.mem_cons_of_mem _ hy)
    · rcases h with hmem | hdone
      · rcases List.mem_cons.mp hmem with rfl | hrest
        · exact .inr (flushHeld_done n hx (.inl rfl))
        · exact .inl hrest
      · exact .inr (flushHeld_done n hx (.inr hdone))

/-- **After a release whatever a live endpoint holds is behind a block**, whatever the links were
before. -/
theorem release_backed (hnodup : n.live.Nodup) (hopen : ∀ e ∈ n.live, (n.transport e).closed = false) :
    n.release.Backed := by
  have hsends := release_sends n
  refine ⟨hsends.live ▸ hnodup, fun e he => ?_, fun e he hne => ?_⟩
  · rw [hsends.closed]
    exact hopen e (hsends.live ▸ he)
  · exact (release_done n.live n hopen (.inl (hsends.live ▸ he))).resolve_left hne

theorem Backed.unblocked (h : n.Backed) (blocked : List (String × String)) :
    {n with blocked := blocked}.release.Backed := release_backed h.nodup h.open

/-! ### Steps -/

/-- A release follows. -/
def Event.releases : Event → Bool
  | .unblock _ _ | .heal => true
  | _ => false

theorem Kept.callback (n : SimNetwork) (cb : Callback) : Kept n (n.callback cb) := by
  cases cb with
  | arrive e => exact (Holds.arrive n e).kept
  | pump e =>
    have hmark : Holds n (n.modify e fun t => {t with pumpScheduled := false}) :=
      .modify n e (fun _ => rfl) (fun _ => rfl) fun _ => rfl
    exact Holds.kept (hmark.trans (.same rfl rfl rfl))
  | finalize e => exact .finalize n e
  | resetByPeer e => exact .resetByPeer n e
  | connectionLost e p error => exact (Holds.connectionLost n e p error).kept

theorem step_kept {ev : Event} (hw : n.WellFormed) (hs : n.step ev = some n')
    (hev : ev.releases = false) : Kept n n' := by
  cases ev with
  | connect clientOwner serverOwner client server =>
    exact (call_some hs).2 ▸ .connectedPair hw clientOwner serverOwner client server
  | write e data =>
    obtain ⟨_, _, rfl⟩ := callOn_some hs
    unfold SimNetwork.write
    split
    · exact .refl n
    · have hcount : Holds n (n.countSend data.length) := .same rfl rfl rfl
      exact (hcount.trans (.send _ e (.data data))).kept
  | writeEof e =>
    obtain ⟨_, _, rfl⟩ := callOn_some hs
    unfold SimNetwork.writeEof
    split
    · exact .refl n
    · exact (Holds.send n e .eof).kept
  | close e => exact (callOn_some hs).2.2 ▸ (Holds.close n e).kept
  | forceClose e error => exact (callOn_some hs).2.2 ▸ .forceClose n e error
  | pauseReading e =>
    exact (callOn_some hs).2.2 ▸ (Holds.modify n e (f := fun t => {t with paused := true})
      (fun _ => rfl) (fun _ => rfl) fun _ => rfl).kept
  | resumeReading e =>
    exact (callOn_some hs).2.2 ▸ ((Holds.modify n e (f := fun t => {t with paused := false})
      (fun _ => rfl) (fun _ => rfl) fun _ => rfl).trans (.schedulePump _ e)).kept
  | setProtocol e p =>
    exact (callOn_some hs).2.2 ▸ (Holds.modify n e (f := fun t => {t with protocol := p})
      (fun _ => rfl) (fun _ => rfl) fun _ => rfl).kept
  | block src dst => exact (call_some hs).2 ▸ (Holds.block n src dst).kept
  | unblock src dst | heal => cases hev
  | partition groupA groupB => exact (call_some hs).2 ▸ (Holds.partition n groupA groupB).kept
  | resetConnections a b => exact (call_some hs).2 ▸ (Holds.resetConnections n a b).kept
  | crash host => exact (call_some hs).2 ▸ .crash n host
  | shape change => exact (call_some hs).2 ▸ Holds.kept (.same rfl rfl rfl)
  | tick t =>
    obtain ⟨_, hs⟩ := Option.ite_none_right_eq_some.mp hs
    exact Option.some.inj hs ▸ Holds.kept (.same rfl rfl rfl)
  | ready cb =>
    obtain ⟨_, hs⟩ := Option.ite_none_right_eq_some.mp hs
    have htaken : Holds n {n with ready := n.ready.erase cb} := .same rfl rfl rfl
    exact Option.some.inj hs ▸ htaken.kept.trans (.callback _ cb)
  | timer t cb =>
    obtain ⟨_, hs⟩ := Option.ite_none_right_eq_some.mp hs
    have htaken : Holds n {n with timers := n.timers.erase (t, cb)} := .same rfl rfl rfl
    exact Option.some.inj hs ▸ htaken.kept.trans (.callback _ cb)
  | advance =>
    simp only [step, SimNetwork.advance] at hs
    split at hs
    · exact Option.some.inj hs ▸ (Holds.turn n _ _).kept
    · exact Option.some.inj hs ▸ (Holds.fill n _ _ _).kept
    · cases hs
  | returned =>
    simp only [step, SimNetwork.returned] at hs
    split at hs
    · exact Option.some.inj hs ▸ Holds.kept (.same rfl rfl rfl)
    · exact Option.some.inj hs ▸ Holds.kept (.same rfl rfl rfl)
    · cases hs
  | eofReturned keepOpen =>
    simp only [step] at hs
    split at hs
    next e p _ =>
      obtain rfl := Option.some.inj hs
      unfold SimNetwork.eofReturned
      dsimp only
      split
      · exact Holds.kept (.same rfl rfl rfl)
      · exact Holds.kept ((Holds.close n e).trans (.same rfl rfl rfl))
    next => cases hs
  | bufferReturned size =>
    simp only [step] at hs
    split at hs
    · exact Option.some.inj hs ▸ (Holds.buffer n _ _ _ size).kept
    · cases hs
  | raised =>
    simp only [step, SimNetwork.raised] at hs
    split at hs
    all_goals first
      | cases hs; done
      | exact Option.some.inj hs ▸ Holds.kept (.same rfl rfl rfl)

theorem backed_start (draws : Nat → Fin 64 × Fin 100) : (start draws).Backed :=
  ⟨List.nodup_nil, fun _ h => absurd h List.not_mem_nil, fun _ h => absurd h List.not_mem_nil⟩

/-- **In every state what a live endpoint holds is behind a block.** -/
theorem step_backed {ev : Event} (hw : n.WellFormed) (hb : n.Backed) (hs : n.step ev = some n') :
    n'.Backed := by
  cases hev : ev.releases with
  | false => exact (step_kept hw hs hev).backed hb
  | true =>
    cases ev with
    | unblock src dst => exact (call_some hs).2 ▸ hb.unblocked _
    | heal => exact (call_some hs).2 ▸ hb.unblocked []
    | _ => cases hev

end SimNetwork
end Simloom
