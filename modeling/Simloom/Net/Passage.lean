import Simloom.Net.Strand
import Simloom.Net.Endings

/-! Streams refine strands.

What is in the inbox, under way or held is, in this order, the rest of a strand, so the way
of an item through the network is no act of it. An item is sent by `write`, `write_eof`, or
a `close` whose peer does not close; the pump takes it. -/
namespace Simloom
open Theory

/-- The pump of an endpoint is in the middle of a chunk. -/
def Activity.handing (r : EndId) : Activity → Bool
  | .filling x _ _ | .buffering x _ _ | .updating x _ _ => x = r
  | _ => false

/-- The protocol of an endpoint is told the end of its stream. -/
def Activity.isEnding (e : EndId) : Activity → Bool
  | .ending x _ => x = e
  | _ => false

namespace SimNetwork
variable {n n' : SimNetwork} {r x : EndId} {dead : Bool}

/-- The direction to an endpoint; `dead` says that the loop is closed. -/
def strand (n : SimNetwork) (dead : Bool) (r : EndId) : Strand where
  sent := (n.transport r.peer).accepted
  taken := (n.transport r).popped
  rest := (n.transport r).inbox ++ (n.transport r).pending ++ (n.transport r.peer).held
  closed := dead || (n.transport r).closed
  handing := n.activity.handing r
  seen := (n.transport r).calls.filterMap fun c => c.2.sign

/-! ### What changes no strand -/

/-- What an endpoint contributes to its two strands. -/
structure SameEnd (t t' : SimTransport) : Prop where
  accepted : t'.accepted = t.accepted
  popped : t'.popped = t.popped
  inbox : t'.inbox = t.inbox
  pending : t'.pending = t.pending
  held : t'.held = t.held
  closed : t'.closed = t.closed
  seen : (t'.calls.filterMap fun c => c.2.sign) = t.calls.filterMap fun c => c.2.sign

theorem SameEnd.refl (t : SimTransport) : SameEnd t t := ⟨rfl, rfl, rfl, rfl, rfl, rfl, rfl⟩

def Still (n n' : SimNetwork) : Prop := ∀ dead r, n'.strand dead r = n.strand dead r

theorem Still.refl (n : SimNetwork) : Still n n := fun _ _ => rfl

theorem Still.trans {m : SimNetwork} (h : Still n m) (h' : Still m n') : Still n n' :=
  fun dead r => (h' dead r).trans (h dead r)

theorem still_of_same (h : ∀ e, SameEnd (n.transport e) (n'.transport e))
    (ha : ∀ r, n'.activity.handing r = n.activity.handing r) : Still n n' := by
  intro dead r
  have hr := h r
  have hp := h r.peer
  unfold strand
  rw [hp.accepted, hr.popped, hr.inbox, hr.pending, hp.held, hr.closed, ha, hr.seen]

theorem still_modify (n : SimNetwork) (x : EndId) {f : SimTransport → SimTransport}
    (h : SameEnd (n.transport x) (f (n.transport x))) : Still n (n.modify x f) := by
  refine still_of_same (fun e => ?_) fun _ => rfl
  by_cases he : e = x
  · rw [he, modify_self]
    exact h
  · rw [modify_of_ne he]
    exact .refl _

theorem still_setProtocol (n : SimNetwork) (x : EndId) (p : Protocol) : Still n (n.setProtocol x p) :=
  still_modify n x ⟨rfl, rfl, rfl, rfl, rfl, rfl, rfl⟩

theorem still_schedulePump (n : SimNetwork) (x : EndId) : Still n (n.schedulePump x) := by
  have hmark : Still n (n.modify x fun t => {t with pumpScheduled := true}) :=
    still_modify n x ⟨rfl, rfl, rfl, rfl, rfl, rfl, rfl⟩
  unfold schedulePump
  split
  · exact hmark
  · exact .refl n

theorem still_resumeReading (n : SimNetwork) (x : EndId) : Still n (n.resumeReading x) := by
  have hread : Still n (n.modify x fun t => {t with paused := false}) :=
    still_modify n x ⟨rfl, rfl, rfl, rfl, rfl, rfl, rfl⟩
  exact hread.trans (still_schedulePump _ x)

theorem still_connectionMade (n : SimNetwork) (x : EndId) (p : Protocol) :
    Still n (n.connectionMade x p) :=
  still_modify n x ⟨rfl, rfl, rfl, rfl, rfl, rfl, by simp [SimTransport.call, Call.sign]⟩

theorem still_connectionLost (n : SimNetwork) (x : EndId) (p : Protocol) (error : Option String) :
    Still n (n.connectionLost x p error) :=
  still_modify n x ⟨rfl, rfl, rfl, rfl, rfl, rfl, by simp [SimTransport.call, Call.sign]⟩

/-- An arrival moves an item on in its strand. -/
theorem still_arrive (n : SimNetwork) (x : EndId) : Still n (n.arrive x) := by
  unfold arrive
  split
  · exact .refl n
  · refine Still.trans ?_ (still_schedulePump _ x)
    split
    · exact .refl n
    next item rest hpending =>
      intro dead r
      by_cases hr : r = x
      · subst hr
        simp [strand, modify, r.peer_ne, hpending]
      · by_cases hp : r.peer = x
        · subst hp
          simp [strand, modify, hr]
        · simp [strand, modify, hr, hp]

theorem still_partition (n : SimNetwork) (groupA groupB : List String) :
    Still n (n.partition groupA groupB) :=
  List.foldlRecOn (groupA.product groupB) _ (.refl n) fun _ hm _ _ => hm.trans fun _ _ => rfl

theorem still_resetConnections (n : SimNetwork) (a b : String) : Still n (n.resetConnections a b) := by
  refine List.foldlRecOn n.live _ (.refl n) fun m hm x _ => hm.trans ?_
  split
  · exact fun _ _ => rfl
  · exact .refl m

/-! ### Sending -/

/-- What is put under way was sent, or is sent now. -/
theorem strand_transmit (n : SimNetwork) (r : EndId) (item : Item) :
    (n.transmit r.peer item).strand dead r = {n.strand dead r with
      rest := (n.transport r).inbox ++ ((n.transport r).pending ++ [item]) ++
        (n.transport r.peer).held} := by
  obtain ⟨arrival, drawn, delayed, _, h⟩ := n.transmit_eq r.peer item
  rw [h]
  simp [strand, modify, awaiting, r.peer_ne]

theorem strand_transmit_ne (n : SimNetwork) (h : x ≠ r.peer) (item : Item) :
    (n.transmit x item).strand dead r = n.strand dead r := by
  obtain ⟨arrival, drawn, delayed, _, heq⟩ := n.transmit_eq x item
  have hr : r ≠ x.peer := fun hr => h (EndId.peer_eq_iff.mp hr.symm)
  rw [heq]
  by_cases hp : r.peer = x.peer
  · simp [strand, modify, awaiting, hr, hp]
  · simp [strand, modify, awaiting, hr, hp]

theorem strand_send (n : SimNetwork) (r : EndId) (item : Item) :
    (n.strand dead r).step (.send item) = some ((n.send r.peer item).strand dead r) := by
  have hne : r ≠ r.peer := Ne.symm r.peer_ne
  refine congrArg some ?_
  unfold send
  dsimp only
  split
  · simp [strand, modify, hne]
  next hfree =>
    rw [strand_transmit]
    have hheld : (n.transport r.peer).held = [] := by
      by_contra hheld
      exact hfree (.inl (by simpa [modify] using hheld))
    simp [strand, modify, hne, hheld]

theorem strand_send_ne (n : SimNetwork) (h : x ≠ r.peer) (item : Item) :
    (n.send x item).strand dead r = n.strand dead r := by
  have hp : r.peer ≠ x := Ne.symm h
  have haccept : (n.modify x fun t => {t with accepted := t.accepted ++ [item]}).strand dead r =
      n.strand dead r := by
    by_cases hr : r = x
    · subst hr
      simp [strand, modify, r.peer_ne]
    · simp [strand, modify, hp, hr]
  unfold send
  dsimp only
  split
  · rw [← haccept]
    by_cases hr : r = x
    · subst hr
      simp [strand, modify, r.peer_ne]
    · simp [strand, modify, hp, hr]
  · rw [strand_transmit_ne _ h, haccept]

/-- What is released goes on in its strand. -/
theorem still_release_one (n : SimNetwork) (x : EndId) {item : Item} {rest : List Item}
    (hheld : (n.transport x).held = item :: rest) :
    Still n ((n.modify x fun t => {t with held := rest}).transmit x item) := by
  intro dead r
  by_cases hx : x = r.peer
  · subst hx
    rw [strand_transmit]
    simp [strand, modify, hheld, Ne.symm r.peer_ne]
  · rw [strand_transmit_ne _ hx]
    have hp : r.peer ≠ x := Ne.symm hx
    by_cases hr : r = x
    · subst hr
      simp [strand, modify, r.peer_ne]
    · simp [strand, modify, hp, hr]

theorem still_flush (x : EndId) (items : List Item) (n : SimNetwork)
    (hheld : (n.transport x).held = items) : Still n (flush x items n) := by
  induction items generalizing n with
  | nil => exact .refl n
  | cons item rest ih =>
    unfold flush
    split
    · exact .refl n
    · refine (still_release_one n x hheld).trans (ih _ ?_)
      obtain ⟨arrival, drawn, delayed, _, h⟩ := (n.modify x fun t => {t with held := rest}).transmit_eq x item
      rw [h]
      simp [modify, awaiting, Ne.symm x.peer_ne]

theorem still_release (n : SimNetwork) : Still n n.release := by
  refine List.foldlRecOn n.live flushHeld (.refl n) fun m hm x _ => hm.trans ?_
  unfold flushHeld
  split
  · exact .refl m
  · exact still_flush x _ m rfl

/-! ### Acts -/

/-- A strand goes from here to there, and nothing is sent behind its end. -/
def Passes (dead : Bool) (r : EndId) (n n' : SimNetwork) : Prop :=
  Transition.Reaches Strand.step Strand.Single (n.strand dead r) (n'.strand dead r)

namespace Passes

theorem stay (h : n'.strand dead r = n.strand dead r) : Passes dead r n n' := by
  unfold Passes
  rw [h]
  exact .refl _

theorem still (h : Still n n') : Passes dead r n n' := .stay (h dead r)

theorem act {a : Strand.Act} (h : (n.strand dead r).step a = some (n'.strand dead r))
    (ha : ∀ item, a ≠ .send item) : Passes dead r n n' :=
  Transition.Reaches.one h fun item hsend => absurd hsend (ha item)

theorem trans {m : SimNetwork} (h : Passes dead r n m) (h' : Passes dead r m n') : Passes dead r n n' :=
  Transition.Reaches.trans h h'

end Passes

/-- A send needs that no end of the stream was sent to an open receiver. -/
theorem send_passes (n : SimNetwork) (x : EndId) (item : Item)
    (hsingle : x = r.peer → (dead || (n.transport r).closed) = false →
      Item.eof ∉ (n.transport x).accepted) : Passes dead r n (n.send x item) := by
  by_cases hx : x = r.peer
  · subst hx
    exact Transition.Reaches.one (n.strand_send r item) fun _ _ hopen => hsingle rfl hopen
  · exact .stay (n.strand_send_ne hx item)

/-- The step makes an endpoint send; also when its protocol answers an end by closing. -/
def sends (n : SimNetwork) (e : EndId) : Event → Prop
  | .write x data => x = e ∧ (n.transport e).closing = false ∧ data ≠ []
  | .writeEof x => x = e ∧ (n.transport e).closing = false
  | .close x => x = e ∧ (n.transport e).closing = false ∧ (n.transport e.peer).closing = false
  | .eofReturned keepOpen =>
    n.activity.isEnding e = true ∧ keepOpen = false ∧ (n.transport e).closing = false ∧
      (n.transport e.peer).closing = false
  | _ => False

instance decidableSends (n : SimNetwork) (e : EndId) : (ev : Event) → Decidable (n.sends e ev)
  | .write x data =>
    inferInstanceAs (Decidable (x = e ∧ (n.transport e).closing = false ∧ data ≠ []))
  | .writeEof x => inferInstanceAs (Decidable (x = e ∧ (n.transport e).closing = false))
  | .close x =>
    inferInstanceAs (Decidable (x = e ∧ (n.transport e).closing = false ∧
      (n.transport e.peer).closing = false))
  | .eofReturned keepOpen =>
    inferInstanceAs (Decidable (n.activity.isEnding e = true ∧ keepOpen = false ∧
      (n.transport e).closing = false ∧ (n.transport e.peer).closing = false))
  | .connect _ _ _ _ | .forceClose _ _ | .pauseReading _ | .resumeReading _ | .setProtocol _ _
  | .block _ _ | .unblock _ _ | .partition _ _ | .heal | .resetConnections _ _ | .crash _ | .shape _
  | .tick _ | .ready _ | .timer _ _ | .advance | .returned | .bufferReturned _ | .raised => isFalse id

theorem write_passes (n : SimNetwork) (x : EndId) (data : List UInt8)
    (hsingle : (dead || (n.transport r).closed) = false → n.sends r.peer (.write x data) →
      Item.eof ∉ (n.transport r.peer).accepted) : Passes dead r n (n.write x data) := by
  unfold write
  split
  · exact .still (.refl n)
  next hwrites =>
    obtain ⟨hclosing, hdata⟩ := not_or.mp hwrites
    refine Passes.trans (.still fun _ _ => rfl) (send_passes (n.countSend data.length) x _ ?_)
    rintro rfl hopen
    exact hsingle hopen ⟨rfl, Bool.eq_false_iff.mpr hclosing, hdata⟩

theorem writeEof_passes (n : SimNetwork) (x : EndId)
    (hsingle : (dead || (n.transport r).closed) = false → n.sends r.peer (.writeEof x) →
      Item.eof ∉ (n.transport r.peer).accepted) : Passes dead r n (n.writeEof x) := by
  unfold writeEof
  split
  · exact .still (.refl n)
  next hclosing =>
    refine send_passes n x _ ?_
    rintro rfl hopen
    exact hsingle hopen ⟨rfl, Bool.eq_false_iff.mpr hclosing⟩

theorem close_passes (n : SimNetwork) (x : EndId)
    (hsingle : (dead || (n.transport r).closed) = false → n.sends r.peer (.close x) →
      Item.eof ∉ (n.transport r.peer).accepted) : Passes dead r n (n.close x) := by
  have hmark : Still n (n.modify x fun t => {t with closing := true}) :=
    still_modify n x ⟨rfl, rfl, rfl, rfl, rfl, rfl, rfl⟩
  unfold close
  split
  · exact .still (.refl n)
  next hclosing =>
    refine (Passes.still hmark).trans ?_
    dsimp only
    split
    · exact .still fun _ _ => rfl
    next hpeer =>
      rw [modify_of_ne x.peer_ne] at hpeer
      refine Passes.trans (send_passes _ x .eof ?_) (.still fun _ _ => rfl)
      rintro rfl hopen
      rw [modify_of_ne (Ne.symm r.peer_ne)] at hopen
      rw [modify_self]
      exact hsingle hopen ⟨rfl, Bool.eq_false_iff.mpr hclosing, Bool.eq_false_iff.mpr hpeer⟩

/-! ### Endings -/

theorem close_end_passes (n : SimNetwork) (x : EndId) {f : SimTransport → SimTransport}
    (h : SameEnd {n.transport x with closed := true} (f (n.transport x))) :
    Passes dead r n (n.modify x f) := by
  have hshut : Still (n.modify x fun t => {t with closed := true}) (n.modify x f) := by
    refine still_of_same (fun e => ?_) fun _ => rfl
    by_cases he : e = x
    · rw [he, modify_self, modify_self]
      exact h
    · rw [modify_of_ne he, modify_of_ne he]
      exact .refl _
  refine Passes.trans ?_ (.still hshut)
  by_cases hr : r = x
  · subst hr
    refine .act (a := .shut) (congrArg some ?_) nofun
    simp [strand, modify, r.peer_ne]
  · refine .stay ?_
    by_cases hp : r.peer = x
    · subst hp
      simp [strand, modify, hr]
    · simp [strand, modify, hr, hp]

theorem kill_passes (n : SimNetwork) (x : EndId) : Passes dead r n (n.kill x) :=
  (close_end_passes n x (f := fun t => {t with closing := true, closed := true})
    ⟨rfl, rfl, rfl, rfl, rfl, rfl, rfl⟩).trans (.still fun _ _ => rfl)

theorem forceClose_passes (n : SimNetwork) (x : EndId) (error : Option String) :
    Passes dead r n (n.forceClose x error) := by
  unfold forceClose
  split
  · exact .still (.refl n)
  · exact (kill_passes n x).trans (.still fun _ _ => rfl)

theorem resetByPeer_passes (n : SimNetwork) (x : EndId) : Passes dead r n (n.resetByPeer x) := by
  unfold resetByPeer
  split
  · exact .still (.refl n)
  · exact (kill_passes n x).trans (.still (still_connectionLost _ _ _ _))

theorem finalize_passes (n : SimNetwork) (x : EndId) : Passes dead r n (n.finalize x) := by
  unfold finalize
  split
  · exact .still (.refl n)
  · have hshut : Passes dead r n (n.modify x fun t => {t with closed := true}) :=
      close_end_passes n x ⟨rfl, rfl, rfl, rfl, rfl, rfl, rfl⟩
    have hforget : Still (n.modify x fun t => {t with closed := true})
        ((n.modify x fun t => {t with closed := true}).forget x) := fun _ _ => rfl
    exact (hshut.trans (.still hforget)).trans (.still (still_connectionLost _ _ _ _))

theorem crash_passes (n : SimNetwork) (host : String) : Passes dead r n (n.crash host) := by
  refine List.foldlRecOn n.live _ (.still (.refl n)) fun m hm x _ => hm.trans ?_
  split
  · unfold dropOnCrash
    dsimp only
    split
    · exact kill_passes m x
    · exact (kill_passes m x).trans (.still fun _ _ => rfl)
  · exact .still (.refl m)

/-! ### The pump -/

theorem still_pump (hidle : n.activity = .idle) (x : EndId) : Still n (n.pump x) := by
  have hmark : Still n (n.modify x fun t => {t with pumpScheduled := false}) :=
    still_modify n x ⟨rfl, rfl, rfl, rfl, rfl, rfl, rfl⟩
  refine hmark.trans (still_of_same (fun e => .refl _) fun e => ?_)
  show false = n.activity.handing e
  rw [hidle]
  rfl

/-- Away from the pump's endpoint nothing is handed over. -/
theorem handing_elsewhere {a : Activity} (h : a.at ≠ some r) : a.handing r = false := by
  cases a with
  | idle | draining | receiving | ending => rfl
  | filling y p view => exact decide_eq_false fun hy => h (congrArg some hy)
  | buffering y p view => exact decide_eq_false fun hy => h (congrArg some hy)
  | updating y p view => exact decide_eq_false fun hy => h (congrArg some hy)

/-- The pump is done with a chunk, or stops. -/
theorem stop_passes (n : SimNetwork) {a : Activity} (ha : a.handing r = false) :
    Passes dead r n {n with activity := a} := by
  refine .act (a := .stop) (congrArg some ?_) nofun
  show {n.strand dead r with handing := false} = {n.strand dead r with handing := a.handing r}
  rw [ha]

/-- A callback in the middle of a chunk. -/
theorem hand_passes {p : Protocol} {c : Call} {a : Activity} (hn : n.activity.at = some x)
    (hhanding : n.activity.handing x = true) (hc : c.sign = some .data) (ha : a.at = some x)
    (hafter : a.handing x = true) :
    Passes dead r n {n.modify x fun t => t.call p c with activity := a} := by
  by_cases hr : r = x
  · subst hr
    refine .act (a := .hand) ((if_pos hhanding).trans (congrArg some ?_)) nofun
    have hbefore : (n.strand dead r).handing = a.handing r := hhanding.trans hafter.symm
    simp only [strand] at hbefore
    simp [strand, modify, r.peer_ne, SimTransport.call, hc, hbefore]
  · have hne (b : Activity) (hb : b.at = some x) : b.handing r = false :=
      handing_elsewhere fun h => hr (Option.some.inj (h.symm.trans hb))
    refine .stay ?_
    have h1 := hne a ha
    have h2 := hne n.activity hn
    by_cases hp : r.peer = x
    · subst hp
      simp [strand, modify, hr, SimTransport.call, h1, h2]
    · simp [strand, modify, hr, hp, h1, h2]

/-- The pump takes an item of an open endpoint. -/
theorem take_passes {p : Protocol} {item : Item} {rest : List Item} (ha : n.activity = .draining x p)
    (hinbox : (n.transport x).inbox = item :: rest) (hopen : (n.transport x).closed = false)
    (hpaused : (n.transport x).paused = false) : Passes false r n (n.turn x p) := by
  by_cases hr : r = x
  · subst hr
    have hhanding : n.activity.handing r = false := by rw [ha]; rfl
    have hrest : (n.strand false r).rest =
        item :: (rest ++ (n.transport r).pending ++ (n.transport r.peer).held) := by
      simp [strand, hinbox]
    have hready : (n.strand false r).closed = false ∧ (n.strand false r).handing = false :=
      ⟨hopen, hhanding⟩
    refine .act (a := .take p.buffered) ?_ nofun
    unfold turn
    rw [hinbox]
    simp only [Strand.step, hrest, if_pos hready, hpaused, hopen, and_self, if_true]
    cases item with
    | eof => simp [strand, modify, r.peer_ne, SimTransport.call, Call.sign, Activity.handing, ha]
    | data d =>
      cases p.buffered with
      | true => simp [strand, modify, r.peer_ne, Activity.handing]
      | false => simp [strand, modify, r.peer_ne, SimTransport.call, Call.sign, Activity.handing, ha]
  · refine .stay ?_
    have hhanding : n.activity.handing r = false := by rw [ha]; rfl
    have hx : ¬x = r := fun hx => hr hx.symm
    unfold turn
    rw [hinbox]
    simp only [hpaused, hopen, and_self, if_true]
    by_cases hp : r.peer = x
    · subst hp
      cases item with
      | eof => simp [strand, modify, hr, SimTransport.call, Activity.handing, ha]
      | data d => cases p.buffered <;> simp [strand, modify, hr, hx, SimTransport.call, Activity.handing, ha]
    · cases item with
      | eof => simp [strand, modify, hr, hp, SimTransport.call, Activity.handing, ha]
      | data d => cases p.buffered <;> simp [strand, modify, hr, hx, hp, SimTransport.call, Activity.handing, ha]

theorem turn_passes {p : Protocol} (ha : n.activity = .draining x p) :
    Passes false r n (n.turn x p) := by
  by_cases htake : (n.transport x).inbox ≠ [] ∧ (n.transport x).paused = false ∧
      (n.transport x).closed = false
  · obtain ⟨hne, hpaused, hopen⟩ := htake
    obtain ⟨item, rest, hinbox⟩ := List.exists_cons_of_ne_nil hne
    exact take_passes ha hinbox hopen hpaused
  · have hidle : n.turn x p = {n with activity := .idle} := by
      unfold turn
      split
      · rfl
      next item rest hinbox =>
        rw [if_neg fun hopen => htake ⟨by rw [hinbox]; exact List.cons_ne_nil _ _, hopen⟩]
    rw [hidle]
    exact stop_passes n rfl

theorem fill_passes {p : Protocol} {view : List UInt8} (ha : n.activity = .filling x p view) :
    Passes dead r n (n.fill x p view) := by
  unfold fill
  split
  · exact hand_passes (by rw [ha]; rfl) (by rw [ha]; exact decide_eq_true rfl) rfl rfl
      (decide_eq_true rfl)
  · exact stop_passes n rfl

theorem buffer_passes {p : Protocol} {view : List UInt8} (ha : n.activity = .buffering x p view)
    (size : Nat) : Passes dead r n (n.buffer x p view size) := by
  unfold buffer
  dsimp only
  split
  · exact hand_passes (by rw [ha]; rfl) (by rw [ha]; exact decide_eq_true rfl) rfl rfl
      (decide_eq_true rfl)
  · exact stop_passes n rfl

theorem eofReturned_passes {p : Protocol} (ha : n.activity = .ending x p) (keepOpen : Bool)
    (hsingle : (dead || (n.transport r).closed) = false → n.sends r.peer (.eofReturned keepOpen) →
      Item.eof ∉ (n.transport r.peer).accepted) : Passes dead r n (n.eofReturned x p keepOpen) := by
  unfold eofReturned
  cases keepOpen with
  | true => exact stop_passes n rfl
  | false =>
    refine (close_passes n x fun hopen hsends => hsingle hopen ?_).trans (stop_passes (n.close x) rfl)
    obtain ⟨rfl, hclosing⟩ := hsends
    have hending : n.activity.isEnding r.peer = true := by
      rw [ha]
      exact decide_eq_true rfl
    exact ⟨hending, rfl, hclosing⟩

theorem returned_passes (hs : n.returned = some n') : Passes dead r n n' := by
  unfold returned at hs
  split at hs
  next y p ha => exact Option.some.inj hs ▸ stop_passes n rfl
  next y p view ha =>
    refine Option.some.inj hs ▸ .still (still_of_same (fun e => .refl _) fun e => ?_)
    rw [ha]
    rfl
  next => cases hs

theorem raised_passes (hs : n.raised = some n') : Passes dead r n n' := by
  unfold raised at hs
  split at hs
  all_goals first
    | cases hs; done
    | exact Option.some.inj hs ▸ stop_passes n rfl

/-! ### Steps -/

/-- **Each step of the network is a run of every strand**, if it sends nothing behind an end of
the stream to an open receiver. -/
theorem step_passes {ev : Event} (h : n.WellFormed) (hs : n.step ev = some n')
    (hconnect : ∀ co so c s, ev ≠ .connect co so c s) (hloop : ev.ofProgram = false → dead = false)
    (hsingle : (dead || (n.transport r).closed) = false → n.sends r.peer ev →
      Item.eof ∉ (n.transport r.peer).accepted) : Passes dead r n n' := by
  cases ev with
  | connect clientOwner serverOwner client server => exact absurd rfl (hconnect _ _ _ _)
  | write x data => exact (callOn_some hs).2.2 ▸ write_passes n x data hsingle
  | writeEof x => exact (callOn_some hs).2.2 ▸ writeEof_passes n x hsingle
  | close x => exact (callOn_some hs).2.2 ▸ close_passes n x hsingle
  | forceClose x error => exact (callOn_some hs).2.2 ▸ forceClose_passes n x error
  | pauseReading x =>
    exact (callOn_some hs).2.2 ▸ .still (still_modify n x ⟨rfl, rfl, rfl, rfl, rfl, rfl, rfl⟩)
  | resumeReading x => exact (callOn_some hs).2.2 ▸ .still (still_resumeReading n x)
  | setProtocol x p => exact (callOn_some hs).2.2 ▸ .still (still_setProtocol n x p)
  | block src dst => exact (call_some hs).2 ▸ .still fun _ _ => rfl
  | unblock src dst =>
    have hblocked : Still n {n with blocked := n.blocked.filter (· ≠ (src, dst))} := fun _ _ => rfl
    exact (call_some hs).2 ▸ .still (hblocked.trans (still_release _))
  | partition groupA groupB => exact (call_some hs).2 ▸ .still (still_partition n groupA groupB)
  | heal =>
    have hblocked : Still n {n with blocked := []} := fun _ _ => rfl
    exact (call_some hs).2 ▸ .still (hblocked.trans (still_release _))
  | resetConnections a b => exact (call_some hs).2 ▸ .still (still_resetConnections n a b)
  | crash host => exact (call_some hs).2 ▸ crash_passes n host
  | shape change => exact (call_some hs).2 ▸ .still fun _ _ => rfl
  | tick t =>
    obtain ⟨_, hs⟩ := Option.ite_none_right_eq_some.mp hs
    exact Option.some.inj hs ▸ .still fun _ _ => rfl
  | ready cb =>
    obtain ⟨⟨hidle, hmem⟩, hs⟩ := Option.ite_none_right_eq_some.mp hs
    have htaken : Still n {n with ready := n.ready.erase cb} := fun _ _ => rfl
    rw [← Option.some.inj hs]
    refine (Passes.still htaken).trans ?_
    cases cb with
    | arrive x => exact absurd rfl (h.ready _ hmem).2
    | pump x => exact .still (still_pump (by exact hidle) x)
    | finalize x => exact finalize_passes _ x
    | resetByPeer x => exact resetByPeer_passes _ x
    | connectionLost x p error => exact .still (still_connectionLost _ x p error)
  | timer t cb =>
    obtain ⟨⟨_, hmem, _⟩, hs⟩ := Option.ite_none_right_eq_some.mp hs
    obtain ⟨x, rfl, _⟩ := h.timers _ hmem
    have htaken : Still n {n with timers := n.timers.erase (t, .arrive x)} := fun _ _ => rfl
    exact Option.some.inj hs ▸ .still (htaken.trans (still_arrive _ x))
  | advance =>
    rw [hloop rfl]
    change n.advance = some n' at hs
    unfold advance at hs
    split at hs
    next x p ha => exact Option.some.inj hs ▸ turn_passes ha
    next x p view ha => exact Option.some.inj hs ▸ fill_passes ha
    next => cases hs
  | returned => exact returned_passes hs
  | eofReturned keepOpen =>
    simp only [step] at hs
    split at hs
    next x p ha => exact Option.some.inj hs ▸ eofReturned_passes ha keepOpen hsingle
    next => cases hs
  | bufferReturned size =>
    simp only [step] at hs
    split at hs
    next x p view ha => exact Option.some.inj hs ▸ buffer_passes ha size
    next => cases hs
  | raised => exact raised_passes hs

end SimNetwork

end Simloom
