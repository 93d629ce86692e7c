import Simloom.Net.Refine

/-! What streams promise, whatever the network does.

Bytes are handed over in order, each chunk no earlier than it was due, and nothing gets
past a block (`streams_in_order`). Everything is delivered in the end, unless the sender
is finalized while a partition still holds its chunks (`streams_delivered`). -/
namespace Simloom
open Theory
namespace SimNetwork

theorem filterMap_marks (items : List Item) : (marks items).filterMap id = bytes items := by
  induction items with
  | nil => rfl
  | cons item rest ih =>
    show (item.marks ++ marks rest).filterMap id = _
    rw [List.filterMap_append, ih]
    cases item <;> simp [Item.marks, bytes]

/-! ### In order, on time -/

/-- The direction towards `r`. What was handed over begins what was accepted; the items
that got arrival times, and those that entered the inbox, begin it too, in that order;
and the `k`-th enters no earlier than its time. -/
structure Delivers (n : SimNetwork) (r : EndId) : Prop where
  handed : (n.transport r).handed <+: marks (n.transport r.peer).accepted
  bytes : (n.transport r).handed.filterMap id <+: bytes (n.transport r.peer).accepted
  assigned : (n.transport r).popped ++ (n.transport r).inbox ++ (n.transport r).pending <+:
      (n.transport r.peer).accepted ∧
    (n.transport r).assigned.length =
      ((n.transport r).popped ++ (n.transport r).inbox ++ (n.transport r).pending).length
  entered : (n.transport r).popped ++ (n.transport r).inbox <+: (n.transport r.peer).accepted ∧
    (n.transport r).entered.length = ((n.transport r).popped ++ (n.transport r).inbox).length
  onTime : ∀ (k : Nat) (a b : ℚ), (n.transport r).assigned[k]? = some a →
    (n.transport r).entered[k]? = some b → a ≤ b

/-- The steps of a run leave a direction blocked. -/
def StaysBlocked (r : EndId) (n : SimNetwork) (ev : Event) : Prop :=
  ∀ n', n.step ev = some n' → n'.isBlockedFrom r.peer = true

theorem channel_start (draws : Nat → Fin 64 × Fin 100) (r : EndId) :
    ((start draws).channel r).Timely ∧ ((start draws).channel r).Conserving := by
  refine ⟨⟨fun _ => ⟨rfl, rfl⟩, rfl, rfl, .nil, fun a ha => absurd ha List.not_mem_nil,
    fun k a b ha => ?_, .nil _ _⟩, ⟨rfl, [], ?_, .inl rfl⟩⟩
  · simp [start, channel, SimTransport.new] at ha
  · rfl

/-- What a run promises about its steps. -/
structure Kind (strict still : Prop) (r : EndId) (n : SimNetwork) (ev : Event) : Prop where
  unbroken : Unbroken r n ev
  smooth : strict → Spared r n ev ∧ Flushed r n ev
  still : still → StaysBlocked r n ev

section Runs
variable {strict still : Prop} {n n' : SimNetwork} {r : EndId} {es : List Event}

/-- A run of the network is a run of each channel. -/
theorem run_follows (h : n.WellFormed) (hkind : Transition.Along step (Kind strict still r) n es)
    (hrun : Transition.run step n es = some n') : Follows strict still r n n' :=
  Transition.reaches_run (channel · r) (keeps_wellFormed _)
    (fun _ _ _ hw hk hs => step_follows hw hs hk.unbroken (fun hst => (hk.smooth hst).1)
      (fun hst => (hk.smooth hst).2) fun hst => hk.still hst _ hs) hkind h hrun

theorem Follows.conserving (h : Follows strict still r n n')
    (hc : (n.channel r).Conserving) : (n'.channel r).Conserving :=
  (Channel.keeps_conserving.mono fun _ _ hg => hg.1).reaches hc h

theorem Follows.timely (h : Follows strict still r n n') (ht : (n.channel r).Timely) :
    (n'.channel r).Timely := (Channel.keeps_timely _).reaches ht h

/-- What got past a block in a run that keeps it had got past it before. -/
theorem Follows.blocked (h : Follows strict True r n n') (hmade : r.pair < n.pairs)
    (hblocked : n.isBlockedFrom r.peer = true) :
    (n'.channel r).passed = (n.channel r).passed :=
  ((Channel.keeps_blocked (n.channel r).passed).mono fun _ _ hg => hg.2.1 trivial).reaches
    ⟨decide_eq_true hmade, hblocked, rfl⟩ h |>.2.2

/-- In a run that breaks off no delivery, every channel conserves and is on time. -/
theorem unbroken_run {draws : Nat → Fin 64 × Fin 100}
    (hunbroken : Transition.Along step (Unbroken r) (start draws) es)
    (hrun : Transition.run step (start draws) es = some n) :
    (n.channel r).Timely ∧ (n.channel r).Conserving := by
  obtain ⟨htimely, hconserving⟩ := channel_start draws r
  have hkind : Transition.Along step (Kind False False r) (start draws) es :=
    hunbroken.mono fun _ _ hu => ⟨hu, False.elim, False.elim⟩
  have hfollows := run_follows (wellFormed_start draws) hkind hrun
  exact ⟨hfollows.timely htimely, hfollows.conserving hconserving⟩

end Runs

theorem Delivers.of_channel {n : SimNetwork} {r : EndId} (hc : (n.channel r).Conserving)
    (ht : (n.channel r).Timely) : n.Delivers r := by
  have hpassed : (n.channel r).passed <+: (n.channel r).accepted := by
    rw [hc.conserved]
    exact List.prefix_append _ _
  have hhanded : (n.channel r).handed <+: marks (n.channel r).accepted := by
    rw [hc.conserved, marks_append]
    exact hc.handed_prefix.trans (List.prefix_append _ _)
  have hentered : (n.channel r).entered.length =
      ((n.channel r).popped ++ (n.channel r).inbox).length := by
    rw [List.length_append]
    exact ht.entered
  have hassigned : (n.channel r).assigned.length = (n.channel r).passed.length := by
    rw [ht.assigned, hentered]
    exact List.length_append.symm
  have hbytes := hhanded.filterMap id
  rw [filterMap_marks] at hbytes
  exact ⟨hhanded, hbytes, ⟨hpassed, hassigned⟩,
    ⟨(List.prefix_append _ _).trans hpassed, hentered⟩, ht.onTime⟩

/-- **Streams never corrupt, reorder or deliver early.** In every run in which no call of
the receiver's pump breaks off inside a chunk: what is handed over begins what was
accepted, items enter the inbox on time, and while a direction stays blocked nothing
written since is handed over. -/
theorem streams_in_order (draws : Nat → Fin 64 × Fin 100) (r : EndId) {es : List Event}
    {n : SimNetwork} (hrun : Transition.run step (start draws) es = some n)
    (hunbroken : Transition.Along step (Unbroken r) (start draws) es) :
    n.Delivers r ∧ ∀ (before after : List Event) (m : SimNetwork), es = before ++ after →
      Transition.run step (start draws) before = some m → r.pair < m.pairs →
      m.isBlockedFrom r.peer = true → Transition.Along step (StaysBlocked r) m after →
      (n.transport r).handed <+: marks (m.transport r.peer).accepted := by
  obtain ⟨htimely, hconserving⟩ := unbroken_run hunbroken hrun
  refine ⟨.of_channel hconserving htimely, ?_⟩
  intro before after m hes hbefore hmade hblocked hstays
  subst hes
  obtain ⟨m', hm', hafter⟩ := Transition.run_append.mp hrun
  obtain rfl : m' = m := Option.some.inj (hm'.symm.trans hbefore)
  have hwell : m'.WellFormed := (keeps_wellFormed fun _ _ => True).run
    (Transition.along_of_forall (fun _ _ _ => trivial) _) (wellFormed_start draws) hbefore
  -- from here on the channel makes no act that heals
  have hstill : Follows False True r m' n :=
    run_follows hwell (((hunbroken.after hbefore).and hstays).mono fun _ _ hu =>
      ⟨hu.1, False.elim, fun _ => hu.2⟩) hafter
  have hpassed : (n.channel r).passed = (m'.channel r).passed := hstill.blocked hmade hblocked
  have hconserved := (unbroken_run (r := r) hunbroken.before hbefore).2.conserved
  have hbegins : marks (m'.channel r).passed <+: marks (m'.channel r).accepted := by
    rw [hconserved, marks_append]
    exact List.prefix_append _ _
  have hle : (n.channel r).handed <+: marks (n.channel r).passed := hconserving.handed_prefix
  rw [hpassed] at hle
  exact hle.trans hbegins

/-- A client and its server. -/
def firstClient : EndId := ⟨0, false⟩

def firstServer : EndId := ⟨0, true⟩

/-- Two bytes are written into a block and healed; the server takes them one by one. -/
def splitDelivery : List Event :=
  [.connect "a" "b" ⟨1, false⟩ ⟨2, true⟩, .block "a" "b", .write firstClient [1, 2], .heal, .tick 1,
    .timer (1 / 2000) (.arrive firstServer), .ready (.pump firstServer), .advance, .advance,
    .bufferReturned 1, .returned, .advance, .bufferReturned 8, .returned, .advance, .advance]

theorem streams_in_order_split : ∃ n,
    Transition.run step (start fun _ => (0, 0)) splitDelivery = some n ∧ n.Delivers firstServer ∧
      (n.transport firstServer).handed = [some 1, some 2] := by
  obtain ⟨n, hn, hhanded⟩ : ∃ n,
      Transition.run step (start fun _ => (0, 0)) splitDelivery = some n ∧
        (n.transport firstServer).handed = [some 1, some 2] :=
    Option.map_eq_some_iff.mp (by decide +kernel :
      (Transition.run step (start fun _ => (0, 0)) splitDelivery).map
        (fun n => (n.transport firstServer).handed) = some [some 1, some 2])
  exact ⟨n, hn, (streams_in_order _ firstServer hn (by decide +kernel)).1, hhanded⟩

/-- Two chunks; the server takes a byte of the first, and then its protocol raises. -/
def brokenOff : List Event :=
  [.connect "a" "b" ⟨1, false⟩ ⟨2, true⟩, .write firstClient [1, 2], .write firstClient [3],
    .tick 1, .timer (1 / 2000) (.arrive firstServer), .ready (.pump firstServer), .advance,
    .advance, .bufferReturned 1, .raised, .timer (1 / 2000) (.arrive firstServer),
    .ready (.pump firstServer), .advance, .advance, .bufferReturned 8]

/-- What is left of a chunk in which the protocol raised is lost, and the next chunk follows. -/
theorem raise_skips_bytes : ∃ n,
    Transition.run step (start fun _ => (0, 0)) brokenOff = some n ∧
    (n.transport firstClient).accepted = [.data [1, 2], .data [3]] ∧
    (n.transport firstServer).handed = [some 1, some 3] ∧
    ¬ (n.transport firstServer).handed <+: marks (n.transport firstClient).accepted := by
  obtain ⟨n, hn, hend⟩ := Option.map_eq_some_iff.mp (by decide +kernel :
    (Transition.run step (start fun _ => (0, 0)) brokenOff).map
      (fun n => ((n.transport firstClient).accepted, (n.transport firstServer).handed)) =
      some ([.data [1, 2], .data [3]], [some 1, some 3]))
  obtain ⟨haccepted, hhanded⟩ := Prod.mk.inj hend
  refine ⟨n, hn, haccepted, hhanded, ?_⟩
  rw [haccepted, hhanded]
  decide

/-! ### Delivery -/

theorem Spared.unbroken {n : SimNetwork} {r : EndId} {ev : Event} (h : Spared r n ev) :
    Unbroken r n ev := by
  have hother (hat : n.activity.at ≠ some r) : (n.phaseAt r).view = [] := by
    rw [phaseAt, if_neg hat]
    rfl
  cases ev with
  | raised => exact hother h
  | bufferReturned size =>
    intro hsize
    apply hother
    intro hat
    have hpos : 0 < size := h hat
    omega
  | _ => trivial

theorem count_none_bytes (d : List UInt8) : (d.map some).count none = 0 :=
  List.count_eq_zero.mpr (none_not_mem_bytes d)

/-- The ends of the stream are marked one by one. -/
theorem count_none_marks (items : List Item) : (marks items).count none = items.count .eof := by
  induction items with
  | nil => rfl
  | cons item items ih =>
    rw [← List.singleton_append, marks_append, List.count_append, List.count_append, ih,
      marks_singleton]
    cases item with
    | eof => rfl
    | data d => exact congrArg (· + _) (count_none_bytes d)

theorem flowing_start (draws : Nat → Fin 64 × Fin 100) (r : EndId) :
    ((start draws).channel r).Flowing where
  held := fun h => absurd rfl h
  timed := fun _ => rfl
  pumped := fun h => absurd rfl h
  scheduled := fun h => Bool.noConfusion h
  ended := fun h => by rcases h with h | h <;> cases h
  closed := fun h => Bool.noConfusion h
  senderClosing := fun h => Bool.noConfusion h
  orderly := ⟨[], 0, rfl⟩
  offered := fun _ h => by cases h

/-- **Streams lose nothing**, in every run that spares both endpoints, in which the sender
is finalized only when it holds nothing back and writes nothing after an end of stream:
once nothing is left to run, the direction is open and the receiver reads, all bytes that
were accepted were handed over, and then the end of the stream if the sender closed or
sent it, at most as often as it was sent. -/
theorem streams_delivered (draws : Nat → Fin 64 × Fin 100) (r : EndId) {es : List Event}
    {n : SimNetwork} (hrun : Transition.run step (start draws) es = some n)
    (hspared : Transition.Along step (Spared r) (start draws) es)
    (hflushed : Transition.Along step (Flushed r) (start draws) es)
    (hready : n.ready = []) (htimers : n.timers = []) (hidle : n.activity = .idle)
    (hblocked : n.isBlockedFrom r.peer = false) (hpaused : (n.transport r).paused = false) :
    ∃ k, (n.transport r).handed =
        (bytes (n.transport r.peer).accepted).map some ++ List.replicate k none ∧
      (0 < k ↔ (n.transport r.peer).closing = true ∨ Item.eof ∈ (n.transport r.peer).accepted) ∧
      k ≤ (n.transport r.peer).accepted.count .eof := by
  have hunbroken := hspared.mono fun _ _ => Spared.unbroken
  have hkind : Transition.Along step (Kind True False r) (start draws) es :=
    (hunbroken.and (hspared.and hflushed)).mono fun _ _ hu => ⟨hu.1, fun _ => hu.2, False.elim⟩
  have hfollows := run_follows (wellFormed_start draws) hkind hrun
  obtain ⟨htimely, hconserving⟩ := unbroken_run hunbroken hrun
  have hflowing : (n.channel r).Flowing :=
    (Channel.keeps_flowing.mono fun _ _ hg => hg.2.2 trivial).reaches
      ⟨(channel_start draws r).1, flowing_start draws r⟩ hfollows |>.2
  have hquiet : (n.channel r).Quiet := by
    refine ⟨?_, ?_, ?_⟩
    · exact if_neg (by rw [hidle]; simp [Activity.at])
    · show n.ready.count (.pump r) = 0
      rw [hready, List.count_nil]
    · show n.timers.filterMap _ = []
      rw [htimers, List.filterMap_nil]
  obtain ⟨k, hhanded, hk⟩ := hflowing.delivered hconserving hquiet hblocked hpaused
  have hcount : k ≤ (n.transport r.peer).accepted.count .eof :=
    calc k = (n.transport r).handed.count none := by
          rw [show (n.transport r).handed = _ from hhanded, List.count_append, count_none_bytes,
            List.count_replicate_self, Nat.zero_add]
      _ ≤ (marks (n.transport r.peer).accepted).count none :=
          (Delivers.of_channel hconserving htimely).handed.count_le none
      _ = (n.transport r.peer).accepted.count .eof := count_none_marks _
  exact ⟨k, hhanded, ⟨fun hpos => .inr (List.count_pos_iff.mp (hpos.trans_le hcount)), hk⟩, hcount⟩

/-- A partition heals before the client is finalized. -/
def healedInTime : List Event :=
  [.connect "a" "b" ⟨1, false⟩ ⟨2, false⟩, .block "a" "b", .write firstClient [1],
    .close firstClient, .heal, .ready (.finalize firstClient), .tick 1,
    .timer (1 / 2000) (.arrive firstServer), .timer (1 / 2000) (.arrive firstServer),
    .ready (.pump firstServer), .advance, .returned, .advance, .eofReturned false, .advance,
    .ready (.finalize firstServer)]

theorem streams_delivered_healed : ∃ n,
    Transition.run step (start fun _ => (0, 0)) healedInTime = some n ∧
      ∃ k, (n.transport firstServer).handed =
          (bytes (n.transport firstClient).accepted).map some ++ List.replicate k none ∧
        (0 < k ↔ (n.transport firstClient).closing = true ∨
          Item.eof ∈ (n.transport firstClient).accepted) ∧
        k ≤ (n.transport firstClient).accepted.count .eof := by
  obtain ⟨n, hn, hend⟩ := Option.map_eq_some_iff.mp (by decide +kernel :
    (Transition.run step (start fun _ => (0, 0)) healedInTime).map
      (fun n => (n.ready, n.timers, n.activity, n.isBlockedFrom firstClient,
        (n.transport firstServer).paused)) = some ([], [], .idle, false, false))
  simp only [Prod.mk.injEq] at hend
  exact ⟨n, hn, streams_delivered _ firstServer hn (by decide +kernel) (by decide +kernel) hend.1
    hend.2.1 hend.2.2.1 hend.2.2.2.1 hend.2.2.2.2⟩

/-- The partition heals after the client was finalized. -/
def healedTooLate : List Event :=
  [.connect "a" "b" ⟨1, false⟩ ⟨2, false⟩, .block "a" "b", .write firstClient [1],
    .close firstClient, .ready (.finalize firstClient), .heal]

/-- What a partition holds when the sender is finalized is never delivered, although
everything has run and the partition has healed. -/
theorem partition_strands_stream : ∃ n,
    Transition.run step (start fun _ => (0, 0)) healedTooLate = some n ∧
    Transition.Along step (Spared firstServer) (start fun _ => (0, 0)) healedTooLate ∧
    n.ready = [] ∧ n.timers = [] ∧ n.activity = .idle ∧ n.isBlockedFrom firstClient = false ∧
    (n.transport firstServer).paused = false ∧
    (n.transport firstClient).accepted = [.data [1], .eof] ∧
    (n.transport firstServer).handed = [] := by
  obtain ⟨n, hn, hend⟩ := Option.map_eq_some_iff.mp (rfl :
    (Transition.run step (start fun _ => (0, 0)) healedTooLate).map
      (fun n => (n.ready, n.timers, n.activity, n.isBlockedFrom firstClient,
        (n.transport firstServer).paused, (n.transport firstClient).accepted,
        (n.transport firstServer).handed)) =
      some ([], [], .idle, false, false, [.data [1], .eof], []))
  simp only [Prod.mk.injEq] at hend
  exact ⟨n, hn, by decide +kernel, hend⟩

end SimNetwork
end Simloom
