import Simloom.Net.Timing

/-! A channel that is left alone delivers everything.

`Smooth` acts leave the receiver open, its protocol does not raise, nothing is
written after an end of stream, and the sender is gone only when it holds nothing.
Under them a channel is always `Flowing`: what is held is held by a block, what is
under way has its alarms, and what is in the inbox has a pump. So once no block, no
alarm and no pump is left, everything accepted was handed over (`Flowing.delivered`). -/
namespace Simloom
open Theory

/-- The bytes of the data among the items. -/
def bytes (items : List Item) : List UInt8 :=
  items.flatMap fun item => match item with
    | .data d => d
    | .eof => []

theorem bytes_append (a b : List Item) : bytes (a ++ b) = bytes a ++ bytes b := List.flatMap_append

/-- Data first, then ends of stream only. -/
def Orderly (items : List Item) : Prop :=
  ∃ (chunks : List (List UInt8)) (k : Nat),
    items = chunks.map Item.data ++ List.replicate k .eof

namespace Orderly
variable {items : List Item}

theorem snoc_data (h : Orderly items) (he : Item.eof ∉ items) (d : List UInt8) :
    Orderly (items ++ [.data d]) := by
  obtain ⟨chunks, k, rfl⟩ := h
  have hk : k = 0 := by
    by_contra hne
    exact he (List.mem_append_right _ (List.mem_replicate.mpr ⟨hne, rfl⟩))
  exact ⟨chunks ++ [d], 0, by simp [hk]⟩

theorem snoc_eof (h : Orderly items) : Orderly (items ++ [.eof]) := by
  obtain ⟨chunks, k, rfl⟩ := h
  exact ⟨chunks, k + 1, by rw [List.append_assoc, List.replicate_succ']⟩

theorem snoc {item : Item} (h : Orderly items) (he : item ≠ .eof → Item.eof ∉ items) :
    Orderly (items ++ [item]) := by
  cases item with
  | data d => exact h.snoc_data (he fun hd => by cases hd) d
  | eof => exact h.snoc_eof

/-- The marks of an orderly stream: its bytes, then its ends. -/
theorem marks_eq (h : Orderly items) : ∃ k, marks items = (bytes items).map some ++
    List.replicate k none ∧ (Item.eof ∈ items → 0 < k) := by
  obtain ⟨chunks, k, rfl⟩ := h
  have hdata : marks (chunks.map Item.data) = (bytes (chunks.map Item.data)).map some := by
    induction chunks with
    | nil => rfl
    | cons d rest ih =>
      show d.map some ++ marks (rest.map Item.data) = (d ++ bytes (rest.map Item.data)).map some
      rw [ih, List.map_append]
  have heof : marks (List.replicate k .eof) = List.replicate k none ∧
      bytes (List.replicate k .eof) = [] := by
    induction k with
    | zero => exact ⟨rfl, rfl⟩
    | succ k ih => exact ⟨congrArg (none :: ·) ih.1, ih.2⟩
  refine ⟨k, ?_, fun hmem => ?_⟩
  · rw [marks_append, hdata, heof.1, bytes_append, heof.2, List.append_nil]
  · rcases List.mem_append.mp hmem with hmem | hmem
    · obtain ⟨_, _, hd⟩ := List.mem_map.mp hmem
      cases hd
    · exact Nat.pos_of_ne_zero (List.mem_replicate.mp hmem).1

end Orderly

/-- A prefix of bytes and ends that reaches an end has all the bytes. -/
theorem prefix_marks {handed : List (Option UInt8)} {b : List UInt8} {k : Nat}
    (h : handed <+: b.map some ++ List.replicate k none) (hend : none ∈ handed) :
    ∃ j, handed = b.map some ++ List.replicate j none ∧ 0 < j := by
  rcases List.prefix_or_prefix_of_prefix h (List.prefix_append _ _) with hshort | hlong
  · exact absurd (hshort.subset hend) (none_not_mem_bytes b)
  · obtain ⟨t, rfl⟩ := hlong
    obtain ⟨_, ht⟩ := List.prefix_replicate_iff.mp ((List.prefix_append_right_inj _).mp h)
    have hmem : none ∈ t := (List.mem_append.mp hend).resolve_left (none_not_mem_bytes b)
    exact ⟨t.length, congrArg _ ht, List.length_pos_of_mem hmem⟩

namespace Channel

/-! ### Flowing -/

def Smooth (c : Channel) : Act → Prop
  | .hold item => item ≠ .eof → Item.eof ∉ c.accepted
  | .transmit item _ => item ≠ .eof → Item.eof ∉ c.accepted
  | .senderClose => Item.eof ∈ c.accepted ∨ c.closing = true
  | .senderGone => c.held = []
  | .buffer size => 0 < size
  | .finish => c.closing = true
  | .raised | .shut | .cut => False
  | _ => True

structure Flowing (c : Channel) : Prop where
  held : c.held ≠ [] → c.blocked = true ∧ c.senderClosed = false
  timed : c.closed = false → c.arrivals.length = c.pending.length
  pumped : c.inbox ≠ [] → c.paused = false → c.closed = false →
    c.pumpScheduled = true ∨ c.phase ≠ .idle
  scheduled : c.pumpScheduled = true → 0 < c.pumps
  ended : c.closing = true ∨ c.phase = .ending → none ∈ c.handed
  closed : c.closed = true → c.closing = true
  senderClosing : c.senderClosing = true → Item.eof ∈ c.accepted ∨ c.closing = true
  orderly : Orderly c.accepted
  offered : ∀ view, c.phase = .buffering view → view ≠ []

namespace Flowing
variable {c : Channel}

theorem pause (h : c.Flowing) : Flowing {c with paused := true} :=
  { h with pumped := fun _ hf => Bool.noConfusion hf }

/-- Scheduling a pump gives the inbox all that it needs. -/
theorem schedule (h : Flowing {c with paused := true}) : c.schedule.Flowing := by
  unfold Channel.schedule
  split
  · exact { h with pumped := fun _ _ _ => .inl rfl, scheduled := fun _ => Nat.succ_pos _ }
  next hs =>
    refine { h with pumped := fun _ _ hopen => .inl ?_ }
    by_contra hp
    exact hs ⟨by simpa using hp, hopen⟩

/-- An alarm goes off at an open receiver. -/
theorem arrive (h : c.Flowing) {time : ℚ} (hmem : time ∈ c.arrivals) (hopen : c.closed = false) :
    (enter {c with arrivals := c.arrivals.erase time}).schedule.Flowing := by
  have htimed := h.timed hopen
  have herase := List.length_erase_of_mem hmem
  have hpos := List.length_pos_of_mem hmem
  unfold enter
  split
  next hp =>
    have hpending : c.pending = [] := hp
    rw [hpending, List.length_nil] at htimed
    omega
  next item rest hp =>
    have hpending : c.pending = item :: rest := hp
    rw [hpending, List.length_cons] at htimed
    refine schedule
      { h with
        timed := fun _ => ?_
        pumped := fun _ hf => Bool.noConfusion hf }
    show (c.arrivals.erase time).length = rest.length
    omega

/-- The pump goes on to a phase that neither ends the stream nor offers nothing. -/
theorem running (h : c.Flowing) {p : Phase} (hidle : p ≠ .idle) (hending : p ≠ .ending)
    (hoff : ∀ view, p = .buffering view → view ≠ []) : Flowing {c with phase := p} :=
  { h with
    pumped := fun _ _ _ => .inr hidle
    ended := fun hor => h.ended (.inl (hor.resolve_right hending))
    offered := hoff }

theorem turn (h : c.Flowing) (buffered : Bool) :
    (c.turn buffered).Flowing := by
  have hend : c.closing = true → none ∈ c.handed := fun hc => h.ended (.inl hc)
  unfold Channel.turn
  split
  next hi =>
    exact
      { h with
        pumped := fun hne => absurd hi hne
        ended := fun hor => hend (hor.resolve_right (by simp))
        offered := fun _ hp => Phase.noConfusion hp }
  next item rest hi =>
    split
    next hopen =>
      cases item with
      | eof =>
        exact
          { h with
            pumped := fun _ _ _ => .inr (by simp)
            ended := fun _ => List.mem_append_right _ List.mem_cons_self
            offered := fun _ hp => Phase.noConfusion hp }
      | data d =>
        cases buffered with
        | true =>
          exact
            { h with
              pumped := fun _ _ _ => .inr (by simp)
              ended := fun hor => hend (hor.resolve_right (by simp))
              offered := fun _ hp => Phase.noConfusion hp }
        | false =>
          exact
            { h with
              pumped := fun _ _ _ => .inr (by simp)
              ended := fun hor => List.mem_append_left _ (hend (hor.resolve_right (by simp)))
              offered := fun _ hp => Phase.noConfusion hp }
    next hstop =>
      exact
        { h with
          pumped := fun _ hp hc => absurd ⟨hp, hc⟩ hstop
          ended := fun hor => hend (hor.resolve_right (by simp))
          offered := fun _ hp => Phase.noConfusion hp }

end Flowing

/-- **Smooth acts keep a channel flowing.** -/
theorem keeps_flowing : Transition.Keeps step Smooth fun c => c.Timely ∧ c.Flowing := by
  intro c a c' hsmooth h hs
  refine ⟨keeps_timely Smooth c a c' hsmooth h.1 hs, ?_⟩
  obtain ⟨htimely, hflow⟩ := h
  have hend : c.closing = true → none ∈ c.handed := fun hc => hflow.ended (.inl hc)
  cases a with
  | connect blocked =>
    obtain ⟨hp, hs⟩ := Option.ite_none_right_eq_some.mp hs
    have hidle : (c.fresh blocked).phase = .idle := hp.2
    refine Option.some.inj hs ▸
      { held := fun hne => absurd rfl hne
        timed := fun _ => ?_
        pumped := fun hne => absurd rfl hne
        scheduled := fun hf => Bool.noConfusion hf
        ended := fun hor => ?_
        closed := fun hf => Bool.noConfusion hf
        senderClosing := fun hf => Bool.noConfusion hf
        orderly := ⟨[], 0, rfl⟩
        offered := fun view hphase => ?_ }
    · show c.arrivals.length = 0
      rw [(htimely.unmade hp.1).1]
      rfl
    · rcases hor with hc | hphase
      · cases hc
      · rw [hidle] at hphase
        cases hphase
    · rw [hidle] at hphase
      cases hphase
  | heal times =>
    simp only [step] at hs
    split at hs
    next hgone =>
      refine Option.some.inj hs ▸ { hflow with held := fun hne => ?_ }
      rw [(hflow.held hne).2] at hgone
      cases hgone
    · obtain ⟨⟨last, rfl, _⟩, hlen⟩ := flush_eq hs
      refine { hflow with held := fun hne => absurd rfl hne, timed := fun ho => ?_ }
      show (c.arrivals ++ times).length = (c.pending ++ c.held).length
      rw [List.length_append, List.length_append, hflow.timed ho, hlen]
  | hold item =>
    obtain ⟨hp, hs⟩ := Option.ite_none_right_eq_some.mp hs
    have hblocked : c.blocked = true := by
      rcases hp.2.2 with hne | hb
      · exact (hflow.held hne).1
      · exact hb
    exact Option.some.inj hs ▸
      { hflow with
        held := fun _ => ⟨hblocked, hp.2.1⟩
        senderClosing := fun hf => (hflow.senderClosing hf).imp (List.mem_append_left _) id
        orderly := hflow.orderly.snoc hsmooth }
  | transmit item arrival =>
    obtain ⟨hp, hs⟩ := Option.ite_none_right_eq_some.mp hs
    refine Option.some.inj hs ▸
      { hflow with
        held := fun hne => absurd hp.2.2.1 hne
        timed := fun ho => ?_
        senderClosing := fun hf => (hflow.senderClosing hf).imp (List.mem_append_left _) id
        orderly := hflow.orderly.snoc hsmooth }
    show (c.arrivals ++ [arrival]).length = (c.pending ++ [item]).length
    rw [List.length_append, List.length_append, hflow.timed ho]
    rfl
  | arrive time =>
    obtain ⟨⟨hmem, _⟩, hs⟩ := Option.ite_none_right_eq_some.mp hs
    rw [← Option.some.inj hs]
    split
    next hcl =>
      refine { hflow with timed := fun ho => ?_ }
      rw [ho] at hcl
      cases hcl
    next hcl => exact hflow.arrive hmem (by simpa using hcl)
  | resume =>
    rw [← Option.some.inj hs]
    exact .schedule hflow.pause
  | pump =>
    obtain ⟨_, hs⟩ := Option.ite_none_right_eq_some.mp hs
    exact Option.some.inj hs ▸
      { hflow.running (p := .draining) (by simp) (by simp) (by simp) with
        pumped := fun _ _ _ => .inr (by simp)
        scheduled := fun hf => Bool.noConfusion hf }
  | next buffered =>
    obtain ⟨_, hs⟩ := Option.ite_none_right_eq_some.mp hs
    exact Option.some.inj hs ▸ hflow.turn buffered
  | ended keepOpen =>
    obtain ⟨hp, hs⟩ := Option.ite_none_right_eq_some.mp hs
    have hnone : none ∈ c.handed := hflow.ended (.inr hp)
    have hclosing (hc : c.closing = true) : (c.closing || !keepOpen) = true := by
      rw [hc]
      rfl
    exact Option.some.inj hs ▸
      { hflow.running (p := .draining) (by simp) (by simp) (by simp) with
        ended := fun _ => hnone
        closed := fun hf => hclosing (hflow.closed hf)
        senderClosing := fun hf => (hflow.senderClosing hf).imp id hclosing }
  | buffer size =>
    simp only [step] at hs
    split at hs
    next view hp =>
      split at hs
      · refine Option.some.inj hs ▸
          { hflow.running (p := .updating (view.drop (min size view.length))) (by simp) (by simp)
              (by simp) with
            ended := fun hor => ?_ }
        rcases hor with hc | hphase
        · exact List.mem_append_left _ (hend hc)
        · cases hphase
      next hzero =>
        have hpos : 0 < size := hsmooth
        have hview := List.length_pos_iff.mpr (hflow.offered view hp)
        omega
    next => cases hs
  | returned =>
    simp only [step] at hs
    split at hs
    · exact Option.some.inj hs ▸ hflow.running (by simp) (by simp) (by simp)
    · exact Option.some.inj hs ▸ hflow.running (by simp) (by simp) (by simp)
    · cases hs
  | fill =>
    simp only [step] at hs
    split at hs
    next view hp =>
      rw [← Option.some.inj hs]
      by_cases hv : view ≠ [] ∧ c.closed = false
      · simp only [if_pos hv]
        exact hflow.running (by simp) (by simp) fun _ hview => Phase.buffering.inj hview ▸ hv.1
      · simp only [if_neg hv]
        exact hflow.running (by simp) (by simp) (by simp)
    next => cases hs
  | senderClose => exact Option.some.inj hs ▸ { hflow with senderClosing := fun _ => hsmooth }
  | senderGone =>
    exact Option.some.inj hs ▸ { hflow with held := fun hne => absurd hsmooth hne }
  | finish =>
    exact Option.some.inj hs ▸
      { hflow with
        timed := fun hf => Bool.noConfusion hf
        pumped := fun _ _ hf => Bool.noConfusion hf
        closed := fun _ => hsmooth }
  | block =>
    exact Option.some.inj hs ▸ { hflow with held := fun hne => ⟨rfl, (hflow.held hne).2⟩ }
  | pause => exact Option.some.inj hs ▸ hflow.pause
  | tick t =>
    obtain ⟨_, hs⟩ := Option.ite_none_right_eq_some.mp hs
    exact Option.some.inj hs ▸ { hflow with }
  | raised | shut | cut => exact hsmooth.elim

/-- Nothing is left to happen on the channel by itself. -/
structure Quiet (c : Channel) : Prop where
  phase : c.phase = .idle
  pumps : c.pumps = 0
  arrivals : c.arrivals = []

/-- **A flowing channel that is quiet has delivered everything**: all bytes that were
accepted, then the end of the stream if the sender is closing or has sent it. -/
theorem Flowing.delivered {c : Channel} (h : c.Flowing) (hc : c.Conserving) (hq : c.Quiet)
    (hblocked : c.blocked = false) (hpaused : c.paused = false) :
    ∃ k, c.handed = (bytes c.accepted).map some ++ List.replicate k none ∧
      (c.senderClosing = true ∨ Item.eof ∈ c.accepted → 0 < k) := by
  obtain ⟨k, hmarks, hk⟩ := h.orderly.marks_eq
  obtain ⟨lost, hpopped, hlost⟩ := hc.handed
  have hle : c.handed <+: marks c.accepted := by
    rw [hc.conserved, marks_append, marks_append, marks_append, hpopped]
    simp only [List.append_assoc]
    exact List.prefix_append _ _
  cases hcl : c.closing with
  | true =>
    -- the end of the stream was handed over, and everything before it
    rw [hmarks] at hle
    obtain ⟨j, hj, hpos⟩ := prefix_marks hle (h.ended (.inl hcl))
    exact ⟨j, hj, fun _ => hpos⟩
  | false =>
    have hopen : c.closed = false := by
      by_contra hne
      have := h.closed (by simpa using hne)
      rw [hcl] at this
      cases this
    have hheld : c.held = [] := by
      by_contra hne
      have := (h.held hne).1
      rw [hblocked] at this
      cases this
    have hpending : c.pending = [] := by
      have := h.timed hopen
      rw [hq.arrivals, List.length_nil] at this
      exact List.eq_nil_of_length_eq_zero this.symm
    have hinbox : c.inbox = [] := by
      by_contra hne
      rcases h.pumped hne hpaused hopen with hs | hp
      · have := h.scheduled hs
        rw [hq.pumps] at this
        exact Nat.lt_irrefl 0 this
      · exact hp hq.phase
    have hnone : lost = [] := hlost.resolve_right (by rw [hopen]; decide)
    have hall : c.handed = marks c.accepted := by
      rw [hc.conserved, hheld, hpending, hinbox]
      rw [hq.phase, hnone] at hpopped
      simpa [Phase.view] using hpopped.symm
    refine ⟨k, hall.trans hmarks, fun hor => hk ?_⟩
    rcases hor with hs | he
    · exact (h.senderClosing hs).resolve_right (by rw [hcl]; decide)
    · exact he

end Channel

end Simloom
