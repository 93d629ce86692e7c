import Simloom.Net.Datagram
import Mathlib.Tactic.Linarith
import Mathlib.Tactic.Positivity

/-! Flows of datagrams, and what keeps them in order.

A flow is what one endpoint sends to another. While the datagrams under way in it arrive at
different times, in the order in which they were sent, what was offered of it is what was
received and then what is under way (`Ordered`). Closing an endpoint keeps that (`Calm`). -/
namespace Simloom
open Theory

/-! ### Shaping -/

/-- Every range that was accepted. -/
structure Shaping.Valid (s : Shaping) : Prop where
  latency : validRange s.latency
  link : ∀ k r, s.linkLatency.get? k = some r → validRange r
  out : ∀ k r, s.nodeOutLatency.get? k = some r → validRange r
  into : ∀ k r, s.nodeInLatency.get? k = some r → validRange r

theorem Shaping.valid_default : Shaping.default.Valid where
  latency := by decide +kernel
  link := fun _ _ h => nomatch h
  out := fun _ _ h => nomatch h
  into := fun _ _ h => nomatch h

theorem valid_set {κ : Type} [DecidableEq κ] {d : Dict κ (ℚ × ℚ)} {k : κ} {r : ℚ × ℚ}
    (h : ∀ k r, d.get? k = some r → validRange r) (hr : validRange r) :
    ∀ k' r', (d.set k r).get? k' = some r' → validRange r' := by
  intro k' r' hget
  rw [Dict.get?_set] at hget
  by_cases hk : k' = k
  · rw [if_pos hk] at hget
    exact Option.some.inj hget ▸ hr
  · rw [if_neg hk] at hget
    exact h k' r' hget

/-- The loss of a clogged node. -/
theorem Shaping.Valid.lose {s : Shaping} (h : s.Valid) (loss : Option Int) {set : Int → Shaping}
    (hset : ∀ percent, (set percent).Valid) : Shaping.Valid (match loss with
      | some percent => if validPercent percent then set percent else s
      | none => s) := by
  cases loss with
  | none => exact h
  | some percent =>
    dsimp only
    split
    · exact hset percent
    · exact h

theorem Shaping.Valid.change {s : Shaping} (h : s.Valid) (c : ShapeChange) : (s.change c).Valid := by
  cases c with
  | latency range =>
    rw [Shaping.change]
    split
    next hr => exact {h with latency := hr}
    next => exact h
  | loss percent =>
    rw [Shaping.change]
    split
    · exact {h with}
    · exact h
  | linkLatency src dst range =>
    rw [Shaping.change]
    split
    next hr => exact {h with link := valid_set h.link hr}
    next => exact h
  | linkLoss src dst percent =>
    rw [Shaping.change]
    split
    · exact {h with}
    · exact h
  | clogNodeOut node latency loss =>
    unfold Shaping.change
    dsimp only
    split
    next hr =>
      cases latency with
      | none => exact h.lose loss fun _ => {h with}
      | some range =>
        have hset : Shaping.Valid {s with nodeOutLatency := s.nodeOutLatency.set node range} :=
          {h with out := valid_set h.out hr}
        exact hset.lose loss fun _ => {hset with}
    next => exact h
  | clogNodeIn node latency loss =>
    unfold Shaping.change
    dsimp only
    split
    next hr =>
      cases latency with
      | none => exact h.lose loss fun _ => {h with}
      | some range =>
        have hset : Shaping.Valid {s with nodeInLatency := s.nodeInLatency.set node range} :=
          {h with into := valid_set h.into hr}
        exact hset.lose loss fun _ => {hset with}
    next => exact h

theorem Shaping.Valid.effectiveLatency {s : Shaping} (h : s.Valid) (src dst : String) :
    validRange (s.effectiveLatency src dst) := by
  unfold Shaping.effectiveLatency effective
  cases hl : s.linkLatency.get? (src, dst) with
  | some r => exact h.link _ r hl
  | none =>
    cases ho : s.nodeOutLatency.get? src with
    | some r => exact h.out _ r ho
    | none =>
      cases hi : s.nodeInLatency.get? dst with
      | some r => exact h.into _ r hi
      | none => exact h.latency

theorem validRange_iff {r : ℚ × ℚ} : validRange r = true ↔ 0 ≤ r.1 ∧ r.1 ≤ r.2 := by
  simp [validRange]

namespace DatagramNetwork
variable {n n' : DatagramNetwork}

theorem delay_nonneg (h : n.shaping.Valid) (src dst : String) (step : Fin 64) :
    0 ≤ n.delay src dst step := by
  obtain ⟨hlo, hhi⟩ := validRange_iff.mp (h.effectiveLatency src dst)
  have hstep : 0 ≤ n.rounding.div (step.val : ℚ) 63 := Rounding.div_nonneg (by positivity) (by norm_num)
  exact Rounding.add_nonneg hlo (Rounding.mul_nonneg (Rounding.sub_nonneg hhi) hstep)

/-! ### Flows -/

/-- What was offered of a flow: by one endpoint to another. -/
def offeredOn (n : DatagramNetwork) (s d : EndpointId) : List Datagram :=
  n.offered.filter fun g => g.sender = s ∧ g.dest = d

/-- What is under way of a flow. -/
def underway (n : DatagramNetwork) (s d : EndpointId) : List (ℚ × Datagram) :=
  n.timers.filter fun p => p.2.sender = s ∧ p.2.dest = d

/-- What was received of a flow. -/
def receivedOn (n : DatagramNetwork) (s d : EndpointId) : List Datagram :=
  (n.endpoint d).received.filter fun g => g.sender = s

/-- The flow's last arrival time. -/
def last (n : DatagramNetwork) (source dst : Addr) : ℚ := (n.front.get? (source, dst)).getD 0

/-- Loss, duplication and reordering are off. -/
def Faultless (n : DatagramNetwork) : Prop :=
  n.faults.loss = 0 ∧ n.faults.duplication = 0 ∧ n.faults.reorder = 0

/-- `_min_delay` puts a time after the flow's last arrival, as far as floats can tell. -/
def Advances (n : DatagramNetwork) (source dst : Addr) : Prop :=
  n.last source dst < n.rounding.add (n.last source dst) n.shaping.latency.1

/-- A send that follows a datagram under way in its flow: `_min_delay` advances the flow, or the
delay it draws puts it later. -/
def Separated (n : DatagramNetwork) : Event → Prop
  | .sendto e _ addr draws =>
    ∀ dst ∈ addr.or (n.endpoint e).remoteAddr, ∀ d ∈ n.bound.get? dst,
      ∀ p ∈ n.underway e d, n.Advances (n.endpoint e).localAddr dst ∨
        p.1 < n.rounding.add n.now
          (n.delay (n.endpoint e).owner (n.endpoint d).owner draws.first.1)
  | _ => True

instance (n : DatagramNetwork) : Decidable n.Faultless :=
  inferInstanceAs (Decidable (_ ∧ _ ∧ _))

instance (n : DatagramNetwork) (source dst : Addr) : Decidable (n.Advances source dst) :=
  inferInstanceAs (Decidable (_ < _))

instance (n : DatagramNetwork) : (event : Event) → Decidable (n.Separated event)
  | .sendto e _ addr draws => inferInstanceAs (Decidable
    (∀ dst ∈ addr.or (n.endpoint e).remoteAddr, ∀ d ∈ n.bound.get? dst,
      ∀ p ∈ n.underway e d, n.Advances (n.endpoint e).localAddr dst ∨
        p.1 < n.rounding.add n.now
          (n.delay (n.endpoint e).owner (n.endpoint d).owner draws.first.1)))
  | .create .. | .close _ | .setProtocol .. | .crash _ | .relink _ | .shape _ | .fault _
  | .tick _ | .finalize _ | .deliver .. | .closeLoop => isTrue trivial

/-! ### The invariant -/

structure Ordered (n : DatagramNetwork) : Prop where
  shaping : n.shaping.Valid
  clock : n.rounding.Exact n.now
  computed : ∀ source dst, n.rounding.Exact (n.last source dst)
  bound : ∀ a d, n.bound.get? a = some d → d < n.made ∧ (n.endpoint d).localAddr = a
  offered : ∀ g ∈ n.offered, g.sender < n.made ∧ g.dest < n.made ∧
    g.source = (n.endpoint g.sender).localAddr
  numbered : n.offered.map Datagram.number = List.range n.offered.length
  timers : ∀ p ∈ n.timers, p.2 ∈ n.offered
  front : ∀ p ∈ n.timers, p.1 ≤ n.last p.2.source (n.endpoint p.2.dest).localAddr
  due : ∀ p ∈ n.timers, n.now ≤ p.1
  sorted : ∀ s d, (n.underway s d).Pairwise fun p q => p.1 < q.1
  whole : n.loopClosed = false → ∀ s d, (n.endpoint d).closed = false →
    n.offeredOn s d = n.receivedOn s d ++ (n.underway s d).map Prod.snd

theorem ordered_start (rounding : Rounding) : (start rounding).Ordered where
  shaping := {Shaping.valid_default with
    latency := validRange_iff.mpr ⟨Rounding.round_nonneg (by norm_num), rounding.mono (by norm_num)⟩}
  clock := Rounding.exact_zero
  computed := fun _ _ => Rounding.exact_zero
  bound := fun _ _ h => nomatch h
  offered := fun _ h => nomatch h
  numbered := rfl
  timers := fun _ h => nomatch h
  front := fun _ h => nomatch h
  due := fun _ h => nomatch h
  sorted := fun _ _ => .nil
  whole := fun _ _ _ _ => rfl

/-- What carries no datagram: it closes endpoints, at most. -/
structure Calm (n n' : DatagramNetwork) : Prop where
  rounding : n'.rounding = n.rounding
  made : n'.made = n.made
  bound : ∀ a d, n'.bound.get? a = some d → n.bound.get? a = some d
  front : n'.front = n.front
  shaping : n'.shaping = n.shaping
  now : n'.now = n.now
  timers : n'.timers = n.timers
  loopClosed : n'.loopClosed = n.loopClosed
  offered : n'.offered = n.offered
  localAddr : ∀ e, (n'.endpoint e).localAddr = (n.endpoint e).localAddr
  received : ∀ e, (n'.endpoint e).received = (n.endpoint e).received
  closed : ∀ e, (n'.endpoint e).closed = false → (n.endpoint e).closed = false

theorem Calm.refl (n : DatagramNetwork) : n.Calm n :=
  ⟨rfl, rfl, fun _ _ h => h, rfl, rfl, rfl, rfl, rfl, rfl, fun _ => rfl, fun _ => rfl, fun _ h => h⟩

theorem Calm.trans {n'' : DatagramNetwork} (h : n.Calm n') (h' : n'.Calm n'') : n.Calm n'' where
  rounding := h'.rounding.trans h.rounding
  made := h'.made.trans h.made
  bound := fun a d hb => h.bound a d (h'.bound a d hb)
  front := h'.front.trans h.front
  shaping := h'.shaping.trans h.shaping
  now := h'.now.trans h.now
  timers := h'.timers.trans h.timers
  loopClosed := h'.loopClosed.trans h.loopClosed
  offered := h'.offered.trans h.offered
  localAddr := fun e => (h'.localAddr e).trans (h.localAddr e)
  received := fun e => (h'.received e).trans (h.received e)
  closed := fun e hc => h.closed e (h'.closed e hc)

theorem Ordered.calm (h : n.Ordered) (hc : n.Calm n') : n'.Ordered where
  shaping := hc.shaping ▸ h.shaping
  clock := by
    rw [hc.rounding, hc.now]
    exact h.clock
  computed := by
    intro source dst
    rw [hc.rounding, last, hc.front]
    exact h.computed source dst
  bound := by
    intro a d hb
    rw [hc.made, hc.localAddr]
    exact h.bound a d (hc.bound a d hb)
  offered := by
    intro g hg
    rw [hc.made, hc.localAddr]
    exact h.offered g (hc.offered ▸ hg)
  numbered := hc.offered ▸ h.numbered
  timers := by
    rw [hc.timers, hc.offered]
    exact h.timers
  front := by
    intro p hp
    rw [last, hc.front, hc.localAddr]
    exact h.front p (hc.timers ▸ hp)
  due := by
    rw [hc.timers, hc.now]
    exact h.due
  sorted := by
    intro s d
    rw [underway, hc.timers]
    exact h.sorted s d
  whole := by
    intro hopen s d hd
    rw [offeredOn, hc.offered, receivedOn, hc.received, underway, hc.timers]
    exact h.whole (hc.loopClosed ▸ hopen) s d (hc.closed d hd)

theorem calm_modify (n : DatagramNetwork) (e : EndpointId)
    {f : SimDatagramTransport → SimDatagramTransport}
    (hlocal : (f (n.endpoint e)).localAddr = (n.endpoint e).localAddr)
    (hreceived : (f (n.endpoint e)).received = (n.endpoint e).received)
    (hclosed : (f (n.endpoint e)).closed = false → (n.endpoint e).closed = false) :
    n.Calm (n.modify e f) where
  rounding := rfl
  made := rfl
  bound := fun _ _ h => h
  front := rfl
  shaping := rfl
  now := rfl
  timers := rfl
  loopClosed := rfl
  offered := rfl
  localAddr := by
    intro x
    by_cases hx : x = e
    · subst hx
      simpa [modify] using hlocal
    · simp [modify, hx]
  received := by
    intro x
    by_cases hx : x = e
    · subst hx
      simpa [modify] using hreceived
    · simp [modify, hx]
  closed := by
    intro x
    by_cases hx : x = e
    · subst hx
      simpa [modify] using hclosed
    · simp [modify, hx]

theorem calm_forget (n : DatagramNetwork) (e : EndpointId) : n.Calm (n.forget e) := by
  unfold forget
  split
  next entry _ =>
    refine {Calm.refl n with bound := fun a d hb => ?_}
    by_cases ha : a = entry.1
    · simp [ha] at hb
    · simpa [ha] using hb
  next => exact .refl n

theorem calm_kill (n : DatagramNetwork) (e : EndpointId) : n.Calm (n.kill e) :=
  (calm_modify n e rfl rfl fun h => Bool.noConfusion h).trans (calm_forget _ e)

theorem calm_crash (n : DatagramNetwork) (host : String) : n.Calm (n.crash host) := by
  refine List.foldlRecOn _ _ (.refl n) fun m hm e _ => hm.trans ?_
  split
  · exact m.calm_kill e
  · exact .refl m

theorem calm_finalize (n : DatagramNetwork) (e : EndpointId) : n.Calm (n.finalize e) := by
  unfold finalize
  split
  · exact .refl n
  · exact ((calm_modify n e rfl rfl fun h => Bool.noConfusion h).trans (calm_forget _ e)).trans
      (calm_modify _ e rfl rfl id)

theorem calm_close (n : DatagramNetwork) (e : EndpointId) : n.Calm (n.close e) := by
  unfold close
  split
  · exact .refl n
  · split
    · exact n.calm_kill e
    · exact {calm_modify n e (f := fun t => {t with closing := true}) rfl rfl id with}

end DatagramNetwork

end Simloom
