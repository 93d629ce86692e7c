import Simloom.Theory.Transition
import Simloom.Theory.Arrivals
import Mathlib.Algebra.Order.Ring.Rat

/-! One direction of a connection, on its own.

A `Channel` is what one sender and one receiver have between them: what the sender
holds back while the link is blocked, what is under way with an alarm for each
arrival, the receiver's inbox and the pump that empties it. `Conserving` says that
whatever is accepted is, in order, handed over, in the inbox, under way or held;
`Flowing` says that where nothing holds the channel back it still has an alarm or a
pump to come. The network refines it, direction by direction. -/
namespace Simloom
open Theory

/-! ### Items -/

/-- What `_send` queues. -/
inductive Item where
  | data (bytes : List UInt8)
  | eof
deriving DecidableEq

/-- What a protocol sees of an item: its bytes, or the end of the stream. -/
def Item.marks : Item → List (Option UInt8)
  | .data bytes => bytes.map some
  | .eof => [none]

def marks (items : List Item) : List (Option UInt8) := items.flatMap Item.marks

@[simp] theorem marks_nil : marks [] = [] := rfl

@[simp] theorem marks_append (a b : List Item) : marks (a ++ b) = marks a ++ marks b :=
  List.flatMap_append

@[simp] theorem marks_singleton (i : Item) : marks [i] = i.marks := List.flatMap_singleton ..

/-- Bytes are no end of the stream. -/
theorem none_not_mem_bytes (d : List UInt8) : none ∉ d.map some := fun hmem => by
  obtain ⟨_, _, hx⟩ := List.mem_map.mp hmem
  cases hx

/-! ### Channels -/

/-- What the receiver's pump is doing. -/
inductive Phase where
  | idle
  | draining
  | receiving
  | ending
  | filling (view : List UInt8)
  | buffering (view : List UInt8)
  | updating (view : List UInt8)
deriving DecidableEq

/-- What is left of the chunk that the pump is handing over. -/
def Phase.view : Phase → List UInt8
  | .filling view => view
  | .buffering view => view
  | .updating view => view
  | _ => []

structure Channel where
  established : Bool
  blocked : Bool
  now : ℚ
  accepted : List Item
  held : List Item
  senderClosing : Bool
  senderClosed : Bool
  pending : List Item
  arrivals : List ℚ
  lastArrival : ℚ
  assigned : List ℚ
  inbox : List Item
  entered : List ℚ
  popped : List Item
  paused : Bool
  pumpScheduled : Bool
  pumps : Nat
  phase : Phase
  closing : Bool
  closed : Bool
  handed : List (Option UInt8)

/-- What can happen on a channel. -/
inductive Act where
  | connect (blocked : Bool)
  | tick (t : ℚ)
  | block
  | heal (times : List ℚ)
  | hold (item : Item)
  | transmit (item : Item) (arrival : ℚ)
  | senderClose
  | senderGone
  | arrive (time : ℚ)
  | pause
  | resume
  | pump
  | next (buffered : Bool)
  | returned
  | ended (keepOpen : Bool)
  | fill
  | buffer (size : Nat)
  | raised
  | shut
  | finish
  | cut
deriving DecidableEq

namespace Channel

/-- A channel that was just made. -/
def fresh (c : Channel) (blocked : Bool) : Channel :=
  {c with
    established := true, blocked := blocked, accepted := [], held := [], senderClosing := false
    senderClosed := false, pending := [], lastArrival := 0, assigned := [], inbox := []
    entered := [], popped := [], paused := false, pumpScheduled := false, closing := false
    closed := false, handed := []}

/-- Put an item under way. -/
def assign (c : Channel) (item : Item) (arrival : ℚ) : Channel :=
  {c with
    pending := c.pending ++ [item], assigned := c.assigned ++ [arrival]
    arrivals := c.arrivals ++ [arrival], lastArrival := arrival}

/-- Put all that was held under way, at arrival times that do not decrease. -/
def flush : List Item → List ℚ → Channel → Option Channel
  | [], [], c => some {c with held := []}
  | item :: rest, a :: times, c =>
    if c.lastArrival ≤ a then flush rest times (c.assign item a) else none
  | _, _, _ => none

def schedule (c : Channel) : Channel :=
  if c.pumpScheduled = false ∧ c.closed = false then
    {c with pumpScheduled := true, pumps := c.pumps + 1}
  else c

/-- An arrival: the head of what is under way enters the inbox of an open receiver. -/
def enter (c : Channel) : Channel :=
  match c.pending with
  | [] => c
  | item :: rest =>
    {c with pending := rest, inbox := c.inbox ++ [item], entered := c.entered ++ [c.now]}

/-- One turn of the pump. -/
def turn (c : Channel) (buffered : Bool) : Channel :=
  match c.inbox with
  | [] => {c with phase := .idle}
  | item :: rest =>
    if c.paused = false ∧ c.closed = false then
      let c := {c with inbox := rest, popped := c.popped ++ [item]}
      match item, buffered with
      | .eof, _ => {c with phase := .ending, handed := c.handed ++ [none]}
      | .data bytes, true => {c with phase := .filling bytes}
      | .data bytes, false => {c with phase := .receiving, handed := c.handed ++ bytes.map some}
    else {c with phase := .idle}

def step (c : Channel) : Act → Option Channel
  | .connect blocked =>
    if c.established = false ∧ c.phase = .idle then some (c.fresh blocked) else none
  | .tick t => if c.now ≤ t then some {c with now := t} else none
  | .block => some {c with blocked := true}
  | .heal times =>
    if c.senderClosed then some {c with blocked := false}
    else flush c.held times {c with blocked := false}
  | .hold item =>
    if c.established ∧ c.senderClosed = false ∧ (c.held ≠ [] ∨ c.blocked) then
      some {c with accepted := c.accepted ++ [item], held := c.held ++ [item]}
    else none
  | .transmit item arrival =>
    if c.established ∧ c.senderClosed = false ∧ c.held = [] ∧ c.blocked = false ∧
        c.lastArrival ≤ arrival then
      some ({c with accepted := c.accepted ++ [item]}.assign item arrival)
    else none
  | .senderClose => some {c with senderClosing := true}
  | .senderGone => some {c with senderClosed := true}
  | .arrive time =>
    if time ∈ c.arrivals ∧ time ≤ c.now then
      let c := {c with arrivals := c.arrivals.erase time}
      some (if c.closed then c else c.enter.schedule)
    else none
  | .pause => some {c with paused := true}
  | .resume => some {c with paused := false}.schedule
  | .pump =>
    if c.established ∧ c.phase = .idle ∧ 0 < c.pumps then
      some {c with pumps := c.pumps - 1, pumpScheduled := false, phase := .draining}
    else none
  | .next buffered => if c.phase = .draining then some (c.turn buffered) else none
  | .returned =>
    match c.phase with
    | .receiving => some {c with phase := .draining}
    | .updating view => some {c with phase := .filling view}
    | _ => none
  | .ended keepOpen =>
    if c.phase = .ending then
      some {c with phase := .draining, closing := c.closing || !keepOpen}
    else none
  | .fill =>
    match c.phase with
    | .filling view =>
      some {c with phase := if view ≠ [] ∧ c.closed = false then .buffering view else .draining}
    | _ => none
  | .buffer size =>
    match c.phase with
    | .buffering view =>
      if 0 < min size view.length then
        some {c with
          handed := c.handed ++ (view.take (min size view.length)).map some
          phase := .updating (view.drop (min size view.length))}
      else some {c with phase := .idle}
    | _ => none
  | .raised =>
    match c.phase with
    | .receiving | .ending | .buffering _ | .updating _ => some {c with phase := .idle}
    | _ => none
  | .shut => some {c with closing := true}
  | .finish => some {c with closed := true}
  | .cut => some {c with closing := true, closed := true}

/-! ### What the acts do -/

theorem flush_eq {items : List Item} {times : List ℚ} {c c' : Channel}
    (h : flush items times c = some c') :
    (∃ last, c' = {c with
      pending := c.pending ++ items, assigned := c.assigned ++ times
      arrivals := c.arrivals ++ times, lastArrival := last, held := []} ∧
      (c.lastArrival :: times).IsChain (· ≤ ·) ∧ ∀ a ∈ c.lastArrival :: times, a ≤ last) ∧
      items.length = times.length := by
  induction items generalizing times c with
  | nil =>
    cases times with
    | nil =>
      obtain rfl := Option.some.inj h
      refine ⟨⟨c.lastArrival, by simp, .singleton _, fun a ha => ?_⟩, rfl⟩
      rw [List.mem_singleton.mp ha]
    | cons a times => cases h
  | cons item rest ih =>
    cases times with
    | nil => cases h
    | cons a times =>
      unfold flush at h
      by_cases ha : c.lastArrival ≤ a
      · rw [if_pos ha] at h
        obtain ⟨⟨last, rfl, hchain, hlast⟩, hlen⟩ := ih h
        refine ⟨⟨last, by simp [assign], .cons_cons ha hchain, fun b hb => ?_⟩, by simp [hlen]⟩
        rcases List.mem_cons.mp hb with rfl | hb
        · exact le_trans ha (hlast a List.mem_cons_self)
        · exact hlast b hb
      · rw [if_neg ha] at h
        cases h

theorem schedule_eq (c : Channel) :
    ∃ scheduled pumps, c.schedule = {c with pumpScheduled := scheduled, pumps := pumps} := by
  unfold schedule
  split
  · exact ⟨_, _, rfl⟩
  · exact ⟨c.pumpScheduled, c.pumps, rfl⟩

/-! ### Nothing is lost, repeated or reordered -/

/-- Nothing of a chunk is left over when its delivery is broken off. -/
def Calm (c : Channel) (a : Act) : Prop := a = .raised ∨ a = .buffer 0 → c.phase.view = []

/-- Whatever was accepted is, in order, handed over, in the inbox, under way or held.
Only a closed receiver drops what is left of a chunk. -/
structure Conserving (c : Channel) : Prop where
  conserved : c.accepted = c.popped ++ c.inbox ++ c.pending ++ c.held
  handed : ∃ lost, marks c.popped = c.handed ++ c.phase.view.map some ++ lost ∧
    (lost = [] ∨ c.closed = true)

namespace Conserving
variable {c : Channel}

theorem schedule (h : c.Conserving) : c.schedule.Conserving := by
  obtain ⟨_, _, hs⟩ := c.schedule_eq
  rw [hs]
  exact ⟨h.conserved, h.handed⟩

theorem enter (h : c.Conserving) : c.enter.Conserving := by
  have hc := h.conserved
  unfold Channel.enter
  split
  · exact h
  next item rest hp =>
    rw [hp] at hc
    exact ⟨by simp [hc], h.handed⟩

theorem flush {items : List Item} {times : List ℚ} {c' : Channel}
    (hf : Channel.flush items times c = some c')
    (hc : c.accepted = c.popped ++ c.inbox ++ c.pending ++ items)
    (hh : ∃ lost, marks c.popped = c.handed ++ c.phase.view.map some ++ lost ∧
      (lost = [] ∨ c.closed = true)) : c'.Conserving := by
  obtain ⟨⟨last, rfl, _⟩, _⟩ := flush_eq hf
  exact ⟨by simp [hc], hh⟩

/-- A turn of the pump takes a whole item, and only of an open receiver. -/
theorem turn (h : c.Conserving) (hphase : c.phase = .draining) (buffered : Bool) :
    (c.turn buffered).Conserving := by
  obtain ⟨hc, lost, hm, hlost⟩ := h
  rw [hphase] at hm
  have hm' : marks c.popped = c.handed ++ lost := by simpa [Phase.view] using hm
  unfold Channel.turn
  split
  · exact ⟨hc, lost, hm, hlost⟩
  next item rest hi =>
    rw [hi] at hc
    split
    next hopen =>
      have hnone : lost = [] := hlost.resolve_right (by rw [hopen.2]; decide)
      rw [hnone, List.append_nil] at hm'
      cases item with
      | eof => exact ⟨by simp [hc], [], by simp [hm', Phase.view, Item.marks], .inl rfl⟩
      | data bytes =>
        cases buffered with
        | true => exact ⟨by simp [hc], [], by simp [hm', Phase.view, Item.marks], .inl rfl⟩
        | false => exact ⟨by simp [hc], [], by simp [hm', Phase.view, Item.marks], .inl rfl⟩
    next => exact ⟨by rw [hi]; exact hc, lost, hm, hlost⟩

end Conserving

theorem conserving_fresh (c : Channel) (hphase : c.phase = .idle) (blocked : Bool) :
    (c.fresh blocked).Conserving :=
  ⟨rfl, [], by simp [fresh, hphase, Phase.view], .inl rfl⟩

/-- **Every act keeps the bytes in order**, unless a delivery is broken off half way. -/
theorem keeps_conserving : Transition.Keeps step Calm Conserving := by
  intro c a c' hcalm h hs
  obtain ⟨hc, lost, hm, hlost⟩ := id h
  cases a with
  | connect blocked =>
    obtain ⟨hp, hs⟩ := Option.ite_none_right_eq_some.mp hs
    exact Option.some.inj hs ▸ conserving_fresh c hp.2 blocked
  | tick t =>
    obtain ⟨_, hs⟩ := Option.ite_none_right_eq_some.mp hs
    exact Option.some.inj hs ▸ ⟨hc, lost, hm, hlost⟩
  | block => exact Option.some.inj hs ▸ ⟨hc, lost, hm, hlost⟩
  | heal times =>
    simp only [step] at hs
    split at hs
    · exact Option.some.inj hs ▸ ⟨hc, lost, hm, hlost⟩
    · exact .flush hs hc ⟨lost, hm, hlost⟩
  | hold item =>
    obtain ⟨_, hs⟩ := Option.ite_none_right_eq_some.mp hs
    exact Option.some.inj hs ▸ ⟨by simp [hc], lost, hm, hlost⟩
  | transmit item arrival =>
    obtain ⟨hp, hs⟩ := Option.ite_none_right_eq_some.mp hs
    refine Option.some.inj hs ▸ ⟨?_, lost, hm, hlost⟩
    show c.accepted ++ [item] = c.popped ++ c.inbox ++ (c.pending ++ [item]) ++ c.held
    simp [hc, hp.2.2.1]
  | senderClose => exact Option.some.inj hs ▸ ⟨hc, lost, hm, hlost⟩
  | senderGone => exact Option.some.inj hs ▸ ⟨hc, lost, hm, hlost⟩
  | arrive time =>
    obtain ⟨_, hs⟩ := Option.ite_none_right_eq_some.mp hs
    have h' : Conserving {c with arrivals := c.arrivals.erase time} := ⟨hc, lost, hm, hlost⟩
    rw [← Option.some.inj hs]
    split
    · exact h'
    · exact h'.enter.schedule
  | pause => exact Option.some.inj hs ▸ ⟨hc, lost, hm, hlost⟩
  | resume =>
    have h' : Conserving {c with paused := false} := ⟨hc, lost, hm, hlost⟩
    exact Option.some.inj hs ▸ h'.schedule
  | pump =>
    obtain ⟨hp, hs⟩ := Option.ite_none_right_eq_some.mp hs
    rw [hp.2.1] at hm
    exact Option.some.inj hs ▸ ⟨hc, lost, hm, hlost⟩
  | next buffered =>
    obtain ⟨hp, hs⟩ := Option.ite_none_right_eq_some.mp hs
    exact Option.some.inj hs ▸ h.turn hp buffered
  | returned =>
    simp only [step] at hs
    split at hs
    next hp => rw [hp] at hm; exact Option.some.inj hs ▸ ⟨hc, lost, hm, hlost⟩
    next view hp => rw [hp] at hm; exact Option.some.inj hs ▸ ⟨hc, lost, hm, hlost⟩
    next => cases hs
  | ended keepOpen =>
    obtain ⟨hp, hs⟩ := Option.ite_none_right_eq_some.mp hs
    rw [hp] at hm
    exact Option.some.inj hs ▸ ⟨hc, lost, hm, hlost⟩
  | fill =>
    simp only [step] at hs
    split at hs
    next view hp =>
      rw [hp] at hm
      rw [← Option.some.inj hs]
      by_cases hv : view ≠ [] ∧ c.closed = false
      · exact ⟨hc, lost, by rw [if_pos hv]; exact hm, hlost⟩
      · -- the loop ends: nothing is left, or the receiver is closed
        refine ⟨hc, view.map some ++ lost, ?_, ?_⟩
        · rw [if_neg hv]
          simpa [Phase.view] using hm
        · by_cases hcl : c.closed = true
          · exact .inr hcl
          · have hview : view = [] := by
              by_contra hne
              exact hv ⟨hne, by simpa using hcl⟩
            rw [hview]
            exact .inl (hlost.resolve_right hcl)
    next => cases hs
  | buffer size =>
    simp only [step] at hs
    split at hs
    next view hp =>
      rw [hp] at hm
      split at hs
      · refine Option.some.inj hs ▸ ⟨hc, lost, ?_, hlost⟩
        have hview : view.map some = (view.take (min size view.length)).map some ++
            (view.drop (min size view.length)).map some := by
          rw [← List.map_append, List.take_append_drop]
        rw [hm]
        show _ = c.handed ++ _ ++ _ ++ lost
        simp only [Phase.view, hview, List.append_assoc]
      next hzero =>
        have hview : view = [] := by
          rcases Nat.eq_zero_or_pos size with rfl | hpos
          · have := hcalm (.inr rfl)
            rwa [hp] at this
          · exact List.eq_nil_of_length_eq_zero (by omega)
        refine Option.some.inj hs ▸ ⟨hc, lost, ?_, hlost⟩
        rw [hm, hview]
        rfl
    next => cases hs
  | raised =>
    have hview := hcalm (.inl rfl)
    have hm' : marks c.popped = c.handed ++ Phase.idle.view.map some ++ lost := by
      rw [hm, hview]
      rfl
    simp only [step] at hs
    split at hs
    · exact Option.some.inj hs ▸ ⟨hc, lost, hm', hlost⟩
    · exact Option.some.inj hs ▸ ⟨hc, lost, hm', hlost⟩
    · exact Option.some.inj hs ▸ ⟨hc, lost, hm', hlost⟩
    · exact Option.some.inj hs ▸ ⟨hc, lost, hm', hlost⟩
    · cases hs
  | shut => exact Option.some.inj hs ▸ ⟨hc, lost, hm, hlost⟩
  | finish => exact Option.some.inj hs ▸ ⟨hc, lost, hm, .inr rfl⟩
  | cut => exact Option.some.inj hs ▸ ⟨hc, lost, hm, .inr rfl⟩

/-- What was handed over is the beginning of what was accepted. -/
theorem Conserving.handed_prefix {c : Channel} (h : c.Conserving) :
    c.handed <+: marks (c.popped ++ c.inbox ++ c.pending) := by
  obtain ⟨lost, hm, _⟩ := h.handed
  rw [marks_append, marks_append, hm]
  simp only [List.append_assoc]
  exact List.prefix_append _ _

/-! ### Blocks hold -/

/-- What has got past the sender. -/
def passed (c : Channel) : List Item := c.popped ++ c.inbox ++ c.pending

def Heals (a : Act) : Prop := ∃ times, a = .heal times

/-- The channel is blocked, and no more than `before` has got past. -/
def BlockedAt (before : List Item) (c : Channel) : Prop :=
  c.established = true ∧ c.blocked = true ∧ c.passed = before

theorem BlockedAt.schedule {before : List Item} {c : Channel} (h : BlockedAt before c) :
    BlockedAt before c.schedule := by
  obtain ⟨_, _, hs⟩ := c.schedule_eq
  rw [hs]
  exact h

/-- **Until it heals, a blocked channel lets nothing past.** -/
theorem keeps_blocked (before : List Item) :
    Transition.Keeps step (fun _ a => ¬ Heals a) (BlockedAt before) := by
  intro c a c' hheals h hs
  obtain ⟨hm, hb, hp⟩ := id h
  cases a with
  | connect blocked =>
    obtain ⟨hf, _⟩ := Option.ite_none_right_eq_some.mp hs
    rw [hm] at hf
    cases hf.1
  | heal times => exact absurd ⟨times, rfl⟩ hheals
  | transmit item arrival =>
    obtain ⟨hf, _⟩ := Option.ite_none_right_eq_some.mp hs
    rw [hb] at hf
    cases hf.2.2.2.1
  | arrive time =>
    obtain ⟨_, hs⟩ := Option.ite_none_right_eq_some.mp hs
    rw [← Option.some.inj hs]
    have hmoved : BlockedAt before (enter {c with arrivals := c.arrivals.erase time}) := by
      unfold enter
      split
      · exact h
      next item rest hpending =>
        have hpending' : c.pending = item :: rest := hpending
        refine ⟨hm, hb, ?_⟩
        rw [passed, hpending'] at hp
        simpa [passed] using hp
    split
    · exact h
    · exact hmoved.schedule
  | next buffered =>
    obtain ⟨_, hs⟩ := Option.ite_none_right_eq_some.mp hs
    rw [← Option.some.inj hs, turn]
    split
    · exact h
    next item rest hinbox =>
      rw [passed, hinbox] at hp
      split
      · cases item <;> cases buffered <;> exact ⟨hm, hb, by simpa [passed] using hp⟩
      · exact ⟨hm, hb, by rw [passed, hinbox]; exact hp⟩
  | resume =>
    have h' : BlockedAt before {c with paused := false} := h
    exact Option.some.inj hs ▸ h'.schedule
  | tick t =>
    obtain ⟨_, hs⟩ := Option.ite_none_right_eq_some.mp hs
    exact Option.some.inj hs ▸ h
  | hold item =>
    obtain ⟨_, hs⟩ := Option.ite_none_right_eq_some.mp hs
    exact Option.some.inj hs ▸ h
  | pump =>
    obtain ⟨_, hs⟩ := Option.ite_none_right_eq_some.mp hs
    exact Option.some.inj hs ▸ h
  | ended keepOpen =>
    obtain ⟨_, hs⟩ := Option.ite_none_right_eq_some.mp hs
    exact Option.some.inj hs ▸ h
  | buffer size =>
    simp only [step] at hs
    split at hs
    · split at hs <;> exact Option.some.inj hs ▸ h
    · cases hs
  | returned | fill | raised =>
    simp only [step] at hs
    split at hs
    all_goals first
      | cases hs; done
      | exact Option.some.inj hs ▸ h
  | block => exact Option.some.inj hs ▸ ⟨hm, rfl, hp⟩
  | senderClose | senderGone | pause | shut | finish | cut => exact Option.some.inj hs ▸ h

end Channel

end Simloom
