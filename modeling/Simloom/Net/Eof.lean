import Simloom.Net.Passage
import Simloom.Net.Streams

/-! The end of a stream.

`write_eof` leaves no trace on its side: after it `write`, `write_eof` and `close` queue as
before, and so does the `close` with which a protocol answers the other side's end. Where no
item is queued behind an end of the stream while the receiver is open, its protocol sees
data first and at most one end. -/
namespace Simloom
open Theory

/-- What a callback is in asyncio's protocol state machine. -/
inductive Kind where
  | made
  | data
  | eof
  | lost
deriving DecidableEq

def Call.kind : Call → Kind
  | .connectionMade => .made
  | .dataReceived _ | .getBuffer _ | .bufferUpdated _ => .data
  | .eofReceived => .eof
  | .connectionLost _ => .lost

/-- `connection_made (data)* (eof_received)? connection_lost?`, or nothing yet. -/
def ProtocolOrder (calls : List Call) : Prop :=
  calls = [] ∨ ∃ k ends lost, (ends = [] ∨ ends = [Kind.eof]) ∧ (lost = [] ∨ lost = [Kind.lost]) ∧
    calls.map Call.kind = .made :: List.replicate k .data ++ ends ++ lost

namespace SimNetwork
variable {n n' : SimNetwork} {r x : EndId}

/-! ### The closed loop -/

theorem dropDead_passes (host : String) (ends : List EndId) (n : SimNetwork) :
    Passes true r n (dropDead host ends n) := by
  induction ends generalizing n with
  | nil => exact .still (.refl n)
  | cons x rest ih =>
    unfold dropDead
    split
    · split
      · exact (kill_passes n x).trans (ih _)
      · exact kill_passes n x
    · exact ih n

theorem still_releaseDead (ends : List EndId) (n : SimNetwork) : Still n (releaseDead ends n) := by
  induction ends generalizing n with
  | nil => exact .refl n
  | cons x rest ih =>
    unfold releaseDead
    split
    · exact ih n
    · split
      · exact ih n
      next item held hheld =>
        have hrefuse (m : SimNetwork) : Still m m.refuse := fun _ _ => rfl
        exact (still_release_one n x hheld).trans (hrefuse _)

theorem stepDead_passes {ev : Event} (h : n.WellFormed) (hs : n.stepDead ev = some n')
    (hconnect : ∀ co so c s, ev ≠ .connect co so c s) : Passes true r n n' := by
  have hother (hs : (if ev.ofProgram then (n.step ev).map refuse else none) = some n') :
      Passes true r n n' := by
    obtain ⟨hprogram, hs⟩ := Option.ite_none_right_eq_some.mp hs
    obtain ⟨m, hm, rfl⟩ := Option.map_eq_some_iff.mp hs
    have hloop (hfalse : ev.ofProgram = false) : true = false :=
      absurd (hprogram.symm.trans hfalse) (by decide)
    exact (step_passes h hm hconnect hloop nofun).trans (.still fun _ _ => rfl)
  cases ev with
  | close x =>
    obtain ⟨_, _, rfl⟩ := callOn_some hs
    unfold closeDead
    split
    · exact .still (.refl n)
    · exact kill_passes n x
  | forceClose x error =>
    obtain ⟨_, _, rfl⟩ := callOn_some hs
    unfold forceCloseDead
    split
    · exact .still (.refl n)
    · exact kill_passes n x
  | crash host => exact (call_some hs).2 ▸ dropDead_passes host n.live n
  | unblock src dst =>
    have hblocked : Still n {n with blocked := n.blocked.filter (· ≠ (src, dst))} := fun _ _ => rfl
    exact (call_some hs).2 ▸ .still (hblocked.trans (still_releaseDead _ _))
  | heal =>
    have hblocked : Still n {n with blocked := []} := fun _ _ => rfl
    exact (call_some hs).2 ▸ .still (hblocked.trans (still_releaseDead _ _))
  | connect clientOwner serverOwner client server => exact absurd rfl (hconnect _ _ _ _)
  | write | writeEof | pauseReading | resumeReading | setProtocol | block | partition | resetConnections
  | shape | tick | ready | timer | advance | returned | eofReturned | bufferReturned | raised =>
    exact hother hs

/-! ### A new pair -/

theorem strand_pairUp (h : n.WellFormed) (clientOwner serverOwner : String) (client server : Protocol)
    (dead : Bool) (r : EndId) :
    (n.pairUp clientOwner serverOwner client server).strand dead r = n.strand dead r ∨
      (n.pairUp clientOwner serverOwner client server).strand dead r =
        {Strand.blank with closed := dead} := by
  by_cases hr : r.pair = n.pairs
  · have hhanding : n.activity.handing r = false := handing_elsewhere fun hat => by
      have := h.activity r hat
      omega
    obtain ⟨pair, server'⟩ := r
    obtain rfl : pair = n.pairs := hr
    refine .inr ?_
    have hactivity : (n.pairUp clientOwner serverOwner client server).activity = n.activity := rfl
    cases server' <;>
      simp [strand, pairUp_transport, EndId.peer, hactivity, hhanding, SimTransport.new,
        SimTransport.call, Call.sign, Strand.blank]
  · have hne (server : Bool) : r ≠ ⟨n.pairs, server⟩ := fun h => hr (congrArg EndId.pair h)
    have hpeer (server : Bool) : r.peer ≠ ⟨n.pairs, server⟩ := fun h => hr (congrArg EndId.pair h)
    refine .inl ?_
    simp only [strand, pairUp_transport, if_neg (hne _), if_neg (hpeer _)]
    rfl

end SimNetwork

/-! ### Runs -/

namespace Lifecycle
variable {l l' : Lifecycle} {r : EndId}

def strand (l : Lifecycle) (r : EndId) : Strand := l.network.strand l.loopClosed r

/-- While the receiver is open, no item is queued behind an end of its stream. -/
def QuietAfterEof (r : EndId) (l : Lifecycle) : Event → Prop
  | .network ev => l.loopClosed = false → (l.network.transport r).closed = false →
    l.network.sends r.peer ev → Item.eof ∉ (l.network.transport r.peer).accepted
  | _ => True

instance decidableQuietAfterEof (r : EndId) (l : Lifecycle) :
    (ev : Event) → Decidable (QuietAfterEof r l ev)
  | .network ev =>
    inferInstanceAs (Decidable (l.loopClosed = false → (l.network.transport r).closed = false →
      l.network.sends r.peer ev → Item.eof ∉ (l.network.transport r.peer).accepted))
  | .connect _ _ _ _ | .made | .closeLoop => isTrue trivial

theorem final_closed (dead : Bool) : Strand.Final {Strand.blank with closed := dead} where
  conserved := rfl
  sent := fun _ => .of_not_mem List.not_mem_nil
  taken := .of_not_mem List.not_mem_nil
  handing := nofun
  seen := ⟨0, rfl⟩

theorem keeps_final (r : EndId) : Transition.Keeps step (QuietAfterEof r) fun l =>
    l.WellFormed ∧ (l.strand r).Final := by
  intro l ev l' hquiet ⟨h, hfinal⟩ hs
  refine ⟨keeps_wellFormed (QuietAfterEof r) l ev l' hquiet h hs, ?_⟩
  cases ev with
  | connect clientOwner serverOwner client server =>
    obtain ⟨_, hs⟩ := Option.ite_none_right_eq_some.mp hs
    rw [← Option.some.inj hs]
    unfold strand at hfinal ⊢
    rcases SimNetwork.strand_pairUp h.network clientOwner serverOwner client server l.loopClosed r with
      hold | hnew
    · rw [hold]
      exact hfinal
    · rw [hnew]
      exact final_closed _
  | made =>
    obtain ⟨network, pairing, loopClosed⟩ := l
    cases pairing with
    | nil => cases hs
    | cons p rest =>
      by_cases htold : p.told = true
      · obtain rfl := Option.some.inj ((if_pos htold).symm.trans hs)
        exact hfinal
      · obtain rfl := Option.some.inj ((if_neg htold).symm.trans hs)
        unfold strand at hfinal ⊢
        rw [SimNetwork.still_connectionMade network p.client p.protocol]
        exact hfinal
  | network ev =>
    obtain ⟨n, hn, rfl⟩ := Option.map_eq_some_iff.mp hs
    have hpasses : SimNetwork.Passes l.loopClosed r l.network n := by
      obtain ⟨hconnect, ⟨hdead, hstep⟩ | ⟨hdead, hstep, _⟩⟩ := move_cases hn
      · rw [hdead]
        exact SimNetwork.stepDead_passes h.network hstep hconnect
      · rw [hdead]
        exact SimNetwork.step_passes h.network hstep hconnect (fun _ => rfl) fun hopen hsends =>
          hquiet hdead hopen hsends
    exact Strand.keeps_final.reaches hfinal hpasses
  | closeLoop =>
    obtain ⟨_, hs⟩ := Option.ite_none_right_eq_some.mp hs
    rw [← Option.some.inj hs]
    have hshut : (l.strand r).step .shut = some {l.strand r with closed := true} := rfl
    have hsingle : (l.strand r).Single .shut := nofun
    exact Strand.keeps_final _ .shut _ hsingle hfinal hshut

end Lifecycle

/-! ### The protocol state machine -/

def Kind.role : Kind → Role
  | .made => .made
  | .data | .eof => .received
  | .lost => .lost

def Kind.sign : Kind → Option Sign
  | .data => some .data
  | .eof => some .eof
  | .made | .lost => none

def Sign.kind : Sign → Kind
  | .data => .data
  | .eof => .eof

theorem Call.role_kind (c : Call) : c.kind.role = c.role := by cases c <;> rfl

theorem Call.sign_kind (c : Call) : c.kind.sign = c.sign := by cases c <;> rfl

/-- Between the first callback and the last, what is seen is all there is. -/
theorem kinds_received {kinds : List Kind} {m : Nat}
    (h : kinds.map Kind.role = List.replicate m .received) :
    kinds = (kinds.filterMap Kind.sign).map Sign.kind := by
  induction kinds generalizing m with
  | nil => rfl
  | cons k rest ih =>
    cases m with
    | zero => cases h
    | succ m =>
      obtain ⟨hk, hrest⟩ := List.cons.inj h
      cases k with
      | made | lost => cases hk
      | data => exact congrArg (Kind.data :: ·) (ih hrest)
      | eof => exact congrArg (Kind.eof :: ·) (ih hrest)

theorem kinds_lost {kinds : List Kind} (h : kinds.map Kind.role = [.lost]) : kinds = [.lost] := by
  obtain ⟨k, rfl, hk⟩ := List.map_eq_singleton_iff.mp h
  cases k with
  | lost => rfl
  | made | data | eof => cases hk

theorem protocolOrder_of_seen {calls : List Call} {k : Nat} {ends : List Sign}
    (horderly : Role.Orderly (calls.map Call.role))
    (hseen : calls.filterMap Call.sign = List.replicate k .data ++ ends)
    (hends : ends = [] ∨ ends = [.eof]) : ProtocolOrder calls := by
  have hroles : (calls.map Call.kind).map Kind.role = calls.map Call.role := by
    simp [Function.comp_def, Call.role_kind]
  have hsigns : (calls.map Call.kind).filterMap Kind.sign = calls.filterMap Call.sign := by
    simp [Call.sign_kind]
  rw [← hsigns] at hseen
  obtain ⟨m, last, hlast, horder⟩ : ∃ m last, (last = [] ∨ last = [Role.lost]) ∧
      (calls.map Call.kind).map Kind.role = .made :: (List.replicate m .received ++ last) := by
    rw [hroles]
    obtain ⟨m, h | h⟩ := horderly
    · exact ⟨m, [], .inl rfl, by rw [h, List.append_nil]⟩
    · exact ⟨m, [.lost], .inr rfl, by rw [h, List.cons_append]⟩
  obtain ⟨first, rest, hkinds, hfirst, hrest⟩ := List.map_eq_cons_iff.mp horder
  obtain ⟨middle, final, rfl, hmiddle, hfinal⟩ := List.map_eq_append_iff.mp hrest
  have hmade : first = .made := by
    cases first with
    | made => rfl
    | data | eof | lost => cases hfirst
  have hfinal' : final = [] ∨ final = [Kind.lost] := by
    rcases hlast with rfl | rfl
    · exact .inl (List.map_eq_nil_iff.mp hfinal)
    · exact .inr (kinds_lost hfinal)
  have hunseen : final.filterMap Kind.sign = [] := by
    rcases hfinal' with rfl | rfl <;> rfl
  have hmiddleSeen : middle.filterMap Kind.sign = List.replicate k .data ++ ends := by
    rw [hkinds, hmade, List.filterMap_cons, List.filterMap_append, hunseen, List.append_nil] at hseen
    exact hseen
  refine .inr ⟨k, ends.map Sign.kind, final, ?_, hfinal', ?_⟩
  · rcases hends with rfl | rfl
    · exact .inl rfl
    · exact .inr rfl
  · rw [hkinds, hmade, kinds_received hmiddle, hmiddleSeen, List.map_append, List.map_replicate]
    rfl

namespace Lifecycle
open SimNetwork (firstClient firstServer)

/-- **The end of a stream is delivered once and last**, in every run in which no item is
queued behind it while its receiver is open. -/
theorem eof_once_and_last (draws : Nat → Fin 64 × Fin 100) (events : List Event) (l : Lifecycle)
    (hrun : Transition.run step (start draws) events = some l) (r : EndId)
    (hquiet : Transition.Along step (QuietAfterEof r) (start draws) events) :
    ProtocolOrder ((l.network.transport r).calls.map Prod.snd) := by
  have hsound : l.Sound := (keeps_sound fun _ _ => True).run
    (Transition.along_of_forall (fun _ _ _ => trivial) _)
    ⟨wellFormed_start draws, fun _ he => absurd he (Nat.not_lt_zero _)⟩ hrun
  have hfinal : (l.strand r).Final :=
    ((keeps_final r).run hquiet ⟨wellFormed_start draws, Strand.final_blank⟩ hrun).2
  have hclean := hsound.clean r
  by_cases hmade : r.pair < l.network.pairs
  · cases hdue : l.due r with
    | some p => exact .inl (by rw [hclean.untold p hdue]; rfl)
    | none =>
      obtain ⟨k, hseen⟩ := hfinal.seen
      have horderly : Role.Orderly (((l.network.transport r).calls.map Prod.snd).map Call.role) := by
        simpa [Function.comp_def] using hclean.told hmade hdue
      have hsigns : ((l.network.transport r).calls.map Prod.snd).filterMap Call.sign =
          List.replicate k .data ++ if Item.eof ∈ (l.strand r).taken then [.eof] else [] := by
        rw [List.filterMap_map]
        exact hseen
      refine protocolOrder_of_seen horderly hsigns ?_
      split
      · exact .inr rfl
      · exact .inl rfl
  · rw [hsound.wellFormed.network.unmade r (Nat.not_lt.mp hmade)]
    exact .inl rfl

/-- A connection whose client writes a byte and ends its stream; the server closes at its end. -/
def endedStream : List Event :=
  [.connect "a" "b" ⟨1, false⟩ ⟨2, false⟩, .made, .made,
    .network (.write firstClient [7]), .network (.writeEof firstClient), .network (.tick 1),
    .network (.timer (1 / 2000) (.arrive firstServer)),
    .network (.timer (1 / 2000) (.arrive firstServer)), .network (.ready (.pump firstServer)),
    .network .advance, .network .returned, .network .advance, .network (.eofReturned false),
    .network .advance, .network (.ready (.finalize firstServer)), .network (.close firstClient)]

theorem eof_once_and_last_ended : ∃ l,
    Transition.run step (start fun _ => (0, 0)) endedStream = some l ∧
      (l.network.transport firstServer).calls.map Prod.snd =
        [.connectionMade, .dataReceived [7], .eofReceived, .connectionLost none] ∧
      ProtocolOrder ((l.network.transport firstServer).calls.map Prod.snd) := by
  obtain ⟨l, hl, hcalls⟩ := (Option.any_eq_true _ _).mp (by decide +kernel :
    (Transition.run step (start fun _ => (0, 0)) endedStream).any fun l =>
      decide ((l.network.transport firstServer).calls.map Prod.snd =
        [.connectionMade, .dataReceived [7], .eofReceived, .connectionLost none]))
  exact ⟨l, hl, of_decide_eq_true hcalls,
    eof_once_and_last _ _ l hl firstServer (by decide +kernel)⟩

/-- The client ends its stream, writes and closes; the server keeps the connection open. -/
def writtenAfterEof : List Event :=
  [.connect "a" "b" ⟨1, false⟩ ⟨2, false⟩, .made, .made,
    .network (.writeEof firstClient), .network (.write firstClient [7]), .network (.close firstClient),
    .network (.tick 1), .network (.timer (1 / 2000) (.arrive firstServer)),
    .network (.timer (1 / 2000) (.arrive firstServer)),
    .network (.timer (1 / 2000) (.arrive firstServer)), .network (.ready (.pump firstServer)),
    .network .advance, .network (.eofReturned true), .network .advance, .network .returned,
    .network .advance]

/-- Its protocol is told the end twice, and receives data in between. -/
theorem eof_twice : ∃ l, Transition.run step (start fun _ => (0, 0)) writtenAfterEof = some l ∧
    (l.network.transport firstServer).calls.map Prod.snd =
      [.connectionMade, .eofReceived, .dataReceived [7], .eofReceived] ∧
    ¬ProtocolOrder ((l.network.transport firstServer).calls.map Prod.snd) := by
  obtain ⟨l, hl, hend⟩ := (Option.any_eq_true _ _).mp (by decide +kernel :
    (Transition.run step (start fun _ => (0, 0)) writtenAfterEof).any fun l =>
      decide ((l.network.transport firstServer).calls.map Prod.snd =
        [.connectionMade, .eofReceived, .dataReceived [7], .eofReceived]))
  have hcalls := of_decide_eq_true hend
  refine ⟨l, hl, hcalls, ?_⟩
  rw [hcalls]
  rintro (hnil | ⟨k, ends, lost, hends, hlost, horder⟩)
  · cases hnil
  · have htail := (List.cons.inj horder).2
    cases k with
    | zero => rcases hends with rfl | rfl <;> rcases hlost with rfl | rfl <;> cases htail
    | succ k => cases htail

end Lifecycle

end Simloom
