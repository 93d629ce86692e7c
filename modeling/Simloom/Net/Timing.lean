import Simloom.Net.Channel

/-! Chunks enter the inbox on time.

Arrival times never decrease, and each comes with one alarm. The loop may serve due
alarms in any order and each moves the head of what is under way, so the k-th item
enters when some alarm goes off, not necessarily its own. It still enters no earlier
than its own time, because the alarms never outrun the times (`Covers`). -/
namespace Simloom
open Theory
namespace Channel

/-- Times and alarms of a channel. -/
structure Timely (c : Channel) : Prop where
  unmade : c.established = false → c.arrivals = [] ∧ c.held = []
  assigned : c.assigned.length = c.entered.length + c.pending.length
  entered : c.entered.length = c.popped.length + c.inbox.length
  sorted : c.assigned.Pairwise (· ≤ ·)
  bounded : ∀ a ∈ c.assigned, a ≤ c.lastArrival
  onTime : ∀ (k : Nat) (a b : ℚ), c.assigned[k]? = some a → c.entered[k]? = some b → a ≤ b
  covers : Covers c.now c.arrivals (c.assigned.drop c.entered.length)

namespace Timely
variable {c : Channel}

theorem schedule (h : c.Timely) : c.schedule.Timely := by
  obtain ⟨_, _, hs⟩ := c.schedule_eq
  rw [hs]
  exact { h with }

theorem entered_le (h : c.Timely) : c.entered.length ≤ c.assigned.length := by
  rw [h.assigned]
  exact Nat.le_add_right _ _

/-- More times, none of them before the last. -/
theorem extend (h : c.Timely) {items : List Item} {times : List ℚ} {last : ℚ}
    {accepted held : List Item} (hmade : c.established = false → times = [] ∧ held = [])
    (hlen : items.length = times.length)
    (hchain : (c.lastArrival :: times).IsChain (· ≤ ·))
    (hlast : ∀ a ∈ c.lastArrival :: times, a ≤ last) :
    Timely {c with
      accepted := accepted, pending := c.pending ++ items, assigned := c.assigned ++ times
      arrivals := c.arrivals ++ times, lastArrival := last, held := held} where
  unmade := by
    intro hf
    show c.arrivals ++ times = [] ∧ held = []
    rw [(hmade hf).1, (h.unmade hf).1]
    exact ⟨rfl, (hmade hf).2⟩
  assigned := by
    have := h.assigned
    simp only [List.length_append]
    omega
  entered := h.entered
  sorted := by
    have hpair := List.isChain_iff_pairwise.mp hchain
    refine List.pairwise_append.mpr ⟨h.sorted, (List.pairwise_cons.mp hpair).2, ?_⟩
    intro a ha b hb
    exact le_trans (h.bounded a ha) ((List.pairwise_cons.mp hpair).1 b hb)
  bounded := by
    intro a ha
    rcases List.mem_append.mp ha with ha | ha
    · exact le_trans (h.bounded a ha) (hlast _ List.mem_cons_self)
    · exact hlast a (List.mem_cons_of_mem _ ha)
  onTime := by
    intro k a b ha hb
    refine h.onTime k a b ?_ hb
    obtain ⟨hk, _⟩ := List.getElem?_eq_some_iff.mp hb
    have hk' : k < c.assigned.length := lt_of_lt_of_le hk h.entered_le
    rwa [List.getElem?_append_left hk'] at ha
  covers := by
    show Covers c.now _ ((c.assigned ++ times).drop c.entered.length)
    rw [List.drop_append_of_le_length h.entered_le]
    exact h.covers.assign times

/-- An alarm goes off: what it moves was due. -/
theorem enter (h : c.Timely) {time : ℚ} (hmem : time ∈ c.arrivals) (hdue : time ≤ c.now) :
    Timely (enter {c with arrivals := c.arrivals.erase time}) := by
  have hsorted := h.sorted.sublist (List.drop_sublist c.entered.length c.assigned)
  obtain ⟨q, rest, hq, hqnow⟩ := h.covers.head_due hsorted hmem hdue
  have hlen : (c.assigned.drop c.entered.length).length = rest.length + 1 := by rw [hq]; rfl
  have hassigned := h.assigned
  rw [List.length_drop] at hlen
  unfold Channel.enter
  split
  next hp =>
    have hpending : c.pending = [] := hp
    rw [hpending, List.length_nil] at hassigned
    omega
  next item pending hp =>
    have hpending : c.pending = item :: pending := hp
    rw [hpending, List.length_cons] at hassigned
    have hdrop : c.assigned.drop (c.entered ++ [c.now]).length = rest := by
      rw [List.length_append, List.length_singleton, ← List.drop_drop, hq]
      rfl
    have hmade : c.established ≠ false := by
      intro hf
      rw [(h.unmade hf).1] at hmem
      cases hmem
    refine ⟨fun hf => absurd hf hmade, ?_, ?_, h.sorted, h.bounded, ?_, ?_⟩
    · simp only [List.length_append, List.length_singleton]
      omega
    · have := h.entered
      simp only [List.length_append, List.length_singleton]
      omega
    · intro k a b ha hb
      rcases Nat.lt_or_ge k c.entered.length with hk | hk
      · rw [List.getElem?_append_left hk] at hb
        exact h.onTime k a b ha hb
      · -- the item that enters now
        obtain ⟨hk', _⟩ := List.getElem?_eq_some_iff.mp hb
        have hk'' : k < (c.entered ++ [c.now]).length := hk'
        rw [List.length_append, List.length_singleton] at hk''
        obtain rfl : k = c.entered.length := Nat.le_antisymm (Nat.le_of_lt_succ hk'') hk
        have hb' : b = c.now := by simpa using hb.symm
        have ha' : a = q := by
          rw [← List.head?_drop, hq] at ha
          exact (Option.some.inj ha).symm
        rw [ha', hb']
        exact hqnow
    · show Covers c.now (c.arrivals.erase time) (c.assigned.drop (c.entered ++ [c.now]).length)
      rw [hdrop]
      exact (hq ▸ h.covers).serve hmem hdue hqnow

theorem turn (h : c.Timely) (buffered : Bool) : (c.turn buffered).Timely := by
  unfold Channel.turn
  split
  · exact { h with }
  next item rest hi =>
    have hlen : c.entered.length = (c.popped ++ [item]).length + rest.length := by
      rw [h.entered, hi]
      simp only [List.length_cons, List.length_append, List.length_nil]
      omega
    split
    · cases item with
      | eof => exact { h with entered := hlen }
      | data bytes => cases buffered <;> exact { h with entered := hlen }
    · exact { h with }

end Timely

/-- **Every act keeps the times.** -/
theorem keeps_timely (P : Channel → Act → Prop) : Transition.Keeps step P Timely := by
  intro c a c' _ h hs
  cases a with
  | connect blocked =>
    obtain ⟨hp, hs⟩ := Option.ite_none_right_eq_some.mp hs
    refine Option.some.inj hs ▸ ⟨fun hf => Bool.noConfusion hf, rfl, rfl, .nil, ?_, ?_, ?_⟩
    · exact fun a ha => absurd ha List.not_mem_nil
    · intro k a b ha
      simp [fresh] at ha
    · show Covers c.now c.arrivals _
      rw [(h.unmade hp.1).1]
      exact .nil _ _
  | tick t =>
    obtain ⟨hle, hs⟩ := Option.ite_none_right_eq_some.mp hs
    exact Option.some.inj hs ▸ { h with covers := h.covers.later hle }
  | heal times =>
    simp only [step] at hs
    split at hs
    · exact Option.some.inj hs ▸ { h with }
    · obtain ⟨⟨last, rfl, hchain, hlast⟩, hlen⟩ := flush_eq hs
      have h' : Timely {c with blocked := false} := { h with }
      refine h'.extend (fun hf => ⟨?_, rfl⟩) hlen hchain hlast
      rw [(h.unmade hf).2] at hlen
      exact List.eq_nil_of_length_eq_zero hlen.symm
  | transmit item arrival =>
    obtain ⟨hp, hs⟩ := Option.ite_none_right_eq_some.mp hs
    have hchain : (c.lastArrival :: [arrival]).IsChain (· ≤ ·) := .cons_cons hp.2.2.2.2 (.singleton _)
    refine Option.some.inj hs ▸ h.extend (fun hf => ?_) rfl hchain fun a ha => ?_
    · rw [hp.1] at hf
      cases hf
    rcases List.mem_cons.mp ha with rfl | ha
    · exact hp.2.2.2.2
    · rw [List.mem_singleton.mp ha]
  | arrive time =>
    obtain ⟨⟨hmem, hdue⟩, hs⟩ := Option.ite_none_right_eq_some.mp hs
    rw [← Option.some.inj hs]
    split
    · refine { h with unmade := fun hf => ?_, covers := h.covers.skip time }
      rw [(h.unmade hf).1] at hmem
      cases hmem
    · exact (h.enter hmem hdue).schedule
  | resume =>
    have h' : Timely {c with paused := false} := { h with }
    exact Option.some.inj hs ▸ h'.schedule
  | next buffered =>
    obtain ⟨_, hs⟩ := Option.ite_none_right_eq_some.mp hs
    exact Option.some.inj hs ▸ h.turn buffered
  | buffer size =>
    simp only [step] at hs
    split at hs
    · split at hs <;> exact Option.some.inj hs ▸ { h with }
    · cases hs
  | hold item =>
    obtain ⟨hp, hs⟩ := Option.ite_none_right_eq_some.mp hs
    refine Option.some.inj hs ▸ { h with unmade := fun hf => ?_ }
    rw [hp.1] at hf
    cases hf
  | pump =>
    obtain ⟨_, hs⟩ := Option.ite_none_right_eq_some.mp hs
    exact Option.some.inj hs ▸ { h with }
  | ended keepOpen =>
    obtain ⟨_, hs⟩ := Option.ite_none_right_eq_some.mp hs
    exact Option.some.inj hs ▸ { h with }
  | returned | fill | raised =>
    simp only [step] at hs
    split at hs
    all_goals first
      | cases hs; done
      | exact Option.some.inj hs ▸ { h with }
  | block | senderClose | senderGone | pause | shut | finish | cut =>
    exact Option.some.inj hs ▸ { h with }

end Channel

end Simloom
