import Simloom.Net.Flows
import Mathlib.Tactic.Linarith
import Mathlib.Tactic.Positivity

/-! Datagrams of one flow arrive in the order in which they were sent.

The arrival times of a flow never decrease, and the loop may swap two of them only when
they are equal. They are equal when a datagram follows another that is still under way,
`_min_delay` added to the flow's last arrival leaves it where it is (it is zero, or rounded
away) and the drawn delay does not put the datagram later. On every run whose sends do not do
this (`Separated`), what an open endpoint was offered is what it received and then what is
under way to it, in this order (`in_order`). -/
namespace Simloom
open Theory

namespace DatagramNetwork
variable {n n' : DatagramNetwork}

/-! ### Sending -/

/-- Without faults what is offered goes on its way once, behind the datagram before it. -/
theorem carry_faultless (hf : n.Faultless) (g : Datagram) (dst : Addr) (draws : DatagramDraws) :
    n.carry g dst draws =
      let arrival := max
        (n.rounding.add n.now
          (n.delay (n.endpoint g.sender).owner (n.endpoint g.dest).owner draws.first.1))
        (n.rounding.add (n.last g.source dst) n.shaping.latency.1)
      {n with
        timers := n.timers ++ [(arrival, g)], front := n.front.set (g.source, dst) arrival} := by
  obtain ⟨hl, hd, hr⟩ := hf
  simp [carry, launch, last, hl, hd, hr]

/-- A datagram goes on its way. -/
def post (n : DatagramNetwork) (g : Datagram) (dst : Addr) (arrival : ℚ) : DatagramNetwork :=
  {n with
    offered := n.offered ++ [g]
    timers := n.timers ++ [(arrival, g)], front := n.front.set (g.source, dst) arrival}

/-- What a call of `sendto` does without faults: nothing to the flows, or it offers one
datagram, which goes on its way. -/
theorem sendto_cases (hf : n.Faultless) (e : EndpointId) (data : List UInt8) (addr : Option Addr)
    (draws : DatagramDraws) :
    n.Calm (n.sendto e data addr draws) ∨
    ∃ f dst d, addr.or (n.endpoint e).remoteAddr = some dst ∧ n.bound.get? dst = some d ∧
      n.sendto e data addr draws =
        (n.count f).post ⟨n.offered.length, e, (n.endpoint e).localAddr, d, data⟩ dst
          (max (n.rounding.add n.now
              (n.delay (n.endpoint e).owner (n.endpoint d).owner draws.first.1))
            (n.rounding.add (n.last (n.endpoint e).localAddr dst) n.shaping.latency.1)) := by
  unfold sendto
  split
  · exact .inl (.refl n)
  · cases ha : addr.or (n.endpoint e).remoteAddr with
    | none => exact .inl (.refl n)
    | some dst =>
      have hcount : n.Calm (n.count fun c =>
          {c with bytesSent := c.bytesSent + data.length, chunksSent := c.chunksSent + 1}) :=
        {Calm.refl n with}
      unfold routeDatagram
      dsimp only
      cases hb : n.bound.get? dst with
      | none => exact .inl (by simpa only [count, hb] using hcount)
      | some d =>
        have hbound : (n.count fun c => {c with
            bytesSent := c.bytesSent + data.length, chunksSent := c.chunksSent + 1}).bound.get?
              dst = some d := hb
        rw [hbound]
        dsimp only
        split
        · exact .inl hcount
        · refine .inr ⟨fun c => {c with bytesSent := c.bytesSent + data.length, chunksSent :=
            c.chunksSent + 1}, dst, d, rfl, hb, ?_⟩
          exact carry_faultless (n := {n.count _ with offered := _}) hf _ dst draws

theorem Ordered.post (h : n.Ordered) {g : Datagram} {dst : Addr} {arrival : ℚ}
    (hnumber : g.number = n.offered.length) (hsender : g.sender < n.made)
    (hsource : g.source = (n.endpoint g.sender).localAddr) (hdest : n.bound.get? dst = some g.dest)
    (hexact : n.rounding.Exact arrival) (hnow : n.now ≤ arrival)
    (hlast : n.last g.source dst ≤ arrival)
    (hsep : ∀ p ∈ n.underway g.sender g.dest, p.1 < arrival) : (n.post g dst arrival).Ordered where
  shaping := h.shaping
  clock := h.clock
  computed := by
    intro source dst'
    show n.rounding.Exact (((n.front.set (g.source, dst) arrival).get? _).getD 0)
    rw [Dict.get?_set]
    split
    · exact hexact
    · exact h.computed source dst'
  bound := h.bound
  offered := by
    intro g' hg'
    rcases List.mem_append.mp hg' with hg' | hg'
    · exact h.offered g' hg'
    · rw [List.mem_singleton.mp hg']
      exact ⟨hsender, (h.bound dst g.dest hdest).1, hsource⟩
  numbered := by
    show (n.offered ++ [g]).map _ = List.range (n.offered ++ [g]).length
    simp [List.range_succ, h.numbered, hnumber]
  timers := by
    intro p hp
    rcases List.mem_append.mp hp with hp | hp
    · exact List.mem_append_left _ (h.timers p hp)
    · rw [List.mem_singleton.mp hp]
      exact List.mem_append_right _ (List.mem_singleton.mpr rfl)
  front := by
    intro p hp
    show p.1 ≤ ((n.front.set (g.source, dst) arrival).get? _).getD 0
    rw [Dict.get?_set]
    rcases List.mem_append.mp hp with hp | hp
    · have hfront := h.front p hp
      split
      next hk =>
        obtain ⟨hsrc, hdst⟩ := Prod.mk.inj hk
        have hkey : n.last p.2.source (n.endpoint p.2.dest).localAddr = n.last g.source dst :=
          congrArg₂ n.last hsrc hdst
        exact (hfront.trans_eq hkey).trans hlast
      next => exact hfront
    · rw [List.mem_singleton.mp hp]
      have hkey : ((arrival, g).2.source, ((n.post g dst arrival).endpoint g.dest).localAddr) =
          (g.source, dst) := congrArg (Prod.mk g.source) (h.bound dst g.dest hdest).2
      rw [if_pos hkey]
      exact le_rfl
  due := by
    intro p hp
    rcases List.mem_append.mp hp with hp | hp
    · exact h.due p hp
    · rw [List.mem_singleton.mp hp]
      exact hnow
  sorted := by
    intro s d
    show ((n.timers ++ [(arrival, g)]).filter _).Pairwise _
    rw [List.filter_append]
    refine List.pairwise_append.mpr ⟨h.sorted s d, ?_, ?_⟩
    · exact (List.pairwise_singleton _ _).sublist List.filter_sublist
    · intro p hp q hq
      obtain ⟨hq, hflow⟩ := List.mem_filter.mp hq
      rw [List.mem_singleton.mp hq] at hflow ⊢
      obtain ⟨rfl, rfl⟩ := of_decide_eq_true hflow
      exact hsep p hp
  whole := by
    intro hopen s d hd
    have hold := h.whole hopen s d hd
    show (n.offered ++ [g]).filter _ = n.receivedOn s d ++
      ((n.timers ++ [(arrival, g)]).filter _).map Prod.snd
    rw [List.filter_append, List.filter_append, List.map_append, ← List.append_assoc]
    refine congrArg₂ (· ++ ·) hold ?_
    by_cases hflow : g.sender = s ∧ g.dest = d <;> simp [hflow]

theorem Ordered.sendto (h : n.Ordered) (hf : n.Faultless) {e : EndpointId} {data : List UInt8}
    {addr : Option Addr} {draws : DatagramDraws} (he : e < n.made)
    (hsep : n.Separated (.sendto e data addr draws)) : (n.sendto e data addr draws).Ordered := by
  rcases sendto_cases hf e data addr draws with hcalm | ⟨f, dst, d, ha, hb, heq⟩
  · exact h.calm hcalm
  · have hdelay := delay_nonneg h.shaping (n.endpoint e).owner (n.endpoint d).owner draws.first.1
    have hmin := (validRange_iff.mp h.shaping.latency).1
    have hcount : (n.count f).Ordered := h.calm {Calm.refl n with}
    rw [heq]
    refine hcount.post rfl he rfl hb ?_ ?_ ?_ fun p hp => ?_
    · exact Rounding.exact_max (Rounding.exact_add _ _) (Rounding.exact_add _ _)
    · exact (Rounding.le_add h.clock hdelay).trans (le_max_left _ _)
    · exact (Rounding.le_add (h.computed _ _) hmin).trans (le_max_right _ _)
    · rcases hsep dst ha d hb p hp with hadvances | hlater
      · have hmem := (List.mem_filter.mp hp).1
        have hfront := h.front p hmem
        obtain ⟨hs, hd⟩ := of_decide_eq_true (List.mem_filter.mp hp).2
        have hkey : n.last p.2.source (n.endpoint p.2.dest).localAddr =
            n.last (n.endpoint e).localAddr dst := by
          rw [(h.offered p.2 (h.timers p hmem)).2.2, hs, hd, (h.bound dst d hb).2]
        exact lt_of_le_of_lt (hfront.trans_eq hkey) (lt_of_lt_of_le hadvances (le_max_right _ _))
      · exact lt_of_lt_of_le hlater (le_max_left _ _)

/-! ### Delivery -/

/-- In a list in order, what is not after anything is the head. -/
theorem head_of_least {l : List (ℚ × Datagram)} {p : ℚ × Datagram}
    (hsorted : l.Pairwise fun x y => x.1 < y.1) (hp : p ∈ l) (hleast : ∀ x ∈ l, p.1 ≤ x.1) :
    ∃ rest, l = p :: rest := by
  cases l with
  | nil => exact absurd hp List.not_mem_nil
  | cons x rest =>
    rcases List.mem_cons.mp hp with rfl | hin
    · exact ⟨rest, rfl⟩
    · have hlt := (List.pairwise_cons.mp hsorted).1 p hin
      exact absurd (hleast x List.mem_cons_self) (not_le.mpr hlt)

/-- Take a delivery off the timers. -/
def unschedule (n : DatagramNetwork) (p : ℚ × Datagram) : DatagramNetwork :=
  {n with timers := n.timers.erase p}

theorem underway_unschedule (n : DatagramNetwork) (p : ℚ × Datagram) (s d : EndpointId) :
    (n.unschedule p).underway s d = (n.underway s d).erase p :=
  (List.erase_filter ..).symm

theorem underway_unschedule_ne {p : ℚ × Datagram} {s d : EndpointId}
    (h : ¬(p.2.sender = s ∧ p.2.dest = d)) : (n.unschedule p).underway s d = n.underway s d := by
  rw [underway_unschedule]
  refine List.erase_of_not_mem fun hp => h ?_
  exact of_decide_eq_true (List.mem_filter.mp hp).2

/-- A due delivery is the first of its flow. -/
theorem Ordered.underway_due (h : n.Ordered) {p : ℚ × Datagram} (hp : p ∈ n.timers)
    (hdue : p.1 ≤ n.now) :
    n.underway p.2.sender p.2.dest = p :: (n.unschedule p).underway p.2.sender p.2.dest := by
  have hin : p ∈ n.underway p.2.sender p.2.dest :=
    List.mem_filter.mpr ⟨hp, decide_eq_true ⟨rfl, rfl⟩⟩
  obtain ⟨rest, hrest⟩ := head_of_least (h.sorted _ _) hin fun x hx =>
    hdue.trans (h.due x (List.mem_filter.mp hx).1)
  rw [underway_unschedule, hrest, List.erase_cons_head]

theorem Ordered.deliver (h : n.Ordered) {p : ℚ × Datagram} (hp : p ∈ n.timers)
    (hdue : p.1 ≤ n.now) : ((n.unschedule p).deliver p.2).Ordered := by
  have hsub : ∀ x ∈ (n.unschedule p).timers, x ∈ n.timers := fun x hx => List.mem_of_mem_erase hx
  have hsorted (s d : EndpointId) :
      ((n.unschedule p).underway s d).Pairwise fun x y => x.1 < y.1 := by
    rw [underway_unschedule]
    exact (h.sorted s d).sublist List.erase_sublist
  unfold DatagramNetwork.deliver
  split
  next hclosed =>
    exact {h with
      timers := fun x hx => h.timers x (hsub x hx)
      front := fun x hx => h.front x (hsub x hx)
      due := fun x hx => h.due x (hsub x hx)
      sorted := hsorted
      whole := by
        intro hopen s d hd
        have hne : ¬(p.2.sender = s ∧ p.2.dest = d) := by
          rintro ⟨rfl, rfl⟩
          exact absurd hclosed (by simpa using hd)
        rw [underway_unschedule_ne hne]
        exact h.whole hopen s d hd}
  next hclosed =>
    have hlocal (x : EndpointId) : (((n.unschedule p).modify p.2.dest fun t =>
        {t.call (.datagramReceived p.2.data p.2.source) with received := t.received ++ [p.2]}).endpoint
          x).localAddr = (n.endpoint x).localAddr := by
      by_cases hx : x = p.2.dest
      · subst hx
        simp [modify, unschedule, SimDatagramTransport.call]
      · simp [modify, unschedule, hx]
    exact {h with
      bound := fun a d hb => by rw [hlocal]; exact h.bound a d hb
      offered := fun g hg => by rw [hlocal]; exact h.offered g hg
      timers := fun x hx => h.timers x (hsub x hx)
      front := fun x hx => by rw [hlocal]; exact h.front x (hsub x hx)
      due := fun x hx => h.due x (hsub x hx)
      sorted := hsorted
      whole := by
        intro hopen s d hd
        by_cases hdest : d = p.2.dest
        · subst hdest
          have hopen' : (n.endpoint p.2.dest).closed = false := Bool.eq_false_iff.mpr hclosed
          have hold := h.whole hopen s p.2.dest hopen'
          have hreceived : (((n.unschedule p).modify p.2.dest fun t =>
              {t.call (.datagramReceived p.2.data p.2.source) with
                received := t.received ++ [p.2]}).receivedOn s p.2.dest) =
              n.receivedOn s p.2.dest ++ [p.2].filter fun g => g.sender = s := by
            simp [receivedOn, modify, unschedule]
          show n.offeredOn s p.2.dest = _ ++ ((n.unschedule p).underway s p.2.dest).map Prod.snd
          rw [hreceived, hold]
          by_cases hs : p.2.sender = s
          · subst hs
            rw [h.underway_due hp hdue]
            simp
          · rw [underway_unschedule_ne fun hflow => hs hflow.1]
            simp [hs]
        · have hsame : ((n.unschedule p).modify p.2.dest fun t =>
              {t.call (.datagramReceived p.2.data p.2.source) with
                received := t.received ++ [p.2]}).endpoint d = n.endpoint d := by
            simp [modify, unschedule, hdest]
          rw [hsame] at hd
          show n.offeredOn s d = List.filter _ (DatagramNetwork.endpoint _ d).received ++
            ((n.unschedule p).underway s d).map Prod.snd
          rw [hsame, underway_unschedule_ne fun hflow => hdest hflow.2.symm]
          exact h.whole hopen s d hd}

/-! ### The other moves -/

theorem enter_ne (n : DatagramNetwork) (localAddr : Addr) (t : SimDatagramTransport)
    {x : EndpointId} (hx : x ≠ n.made) : (n.enter localAddr t).endpoint x = n.endpoint x :=
  Function.update_of_ne hx _ _

theorem enter_made (n : DatagramNetwork) (localAddr : Addr) (t : SimDatagramTransport) :
    (n.enter localAddr t).endpoint n.made = t := Function.update_self ..

theorem Ordered.enter (h : n.Ordered) {localAddr : Addr} {t : SimDatagramTransport}
    (hlocal : t.localAddr = localAddr) (hreceived : t.received = []) :
    (n.enter localAddr t).Ordered :=
  have hdest {p : ℚ × Datagram} (hp : p ∈ n.timers) : p.2.dest < n.made :=
    (h.offered p.2 (h.timers p hp)).2.1
  {h with
    bound := by
      intro a d hb
      have hb : (n.bound.set localAddr n.made).get? a = some d := hb
      rw [Dict.get?_set] at hb
      by_cases ha : a = localAddr
      · rw [if_pos ha, Option.some.injEq] at hb
        subst hb
        rw [enter_made]
        exact ⟨Nat.lt_succ_self _, hlocal.trans ha.symm⟩
      · rw [if_neg ha] at hb
        obtain ⟨hlt, hd⟩ := h.bound a d hb
        rw [enter_ne _ _ _ hlt.ne]
        exact ⟨Nat.lt_succ_of_lt hlt, hd⟩
    offered := by
      intro g hg
      obtain ⟨hs, hd, hsource⟩ := h.offered g hg
      rw [enter_ne _ _ _ hs.ne]
      exact ⟨Nat.lt_succ_of_lt hs, Nat.lt_succ_of_lt hd, hsource⟩
    front := by
      intro p hp
      rw [enter_ne _ _ _ (hdest hp).ne]
      exact h.front p hp
    whole := by
      intro hopen s d hd
      show n.offeredOn s d = (n.enter localAddr t).receivedOn s d ++ (n.underway s d).map Prod.snd
      unfold receivedOn
      by_cases hnew : d = n.made
      · subst hnew
        have hoffered : n.offeredOn s n.made = [] :=
          List.filter_eq_nil_iff.mpr fun g hg hflow =>
            absurd (of_decide_eq_true hflow).2 (h.offered g hg).2.1.ne
        have hunder : n.underway s n.made = [] :=
          List.filter_eq_nil_iff.mpr fun p hp hflow =>
            absurd (of_decide_eq_true hflow).2 (hdest hp).ne
        rw [enter_made, hreceived, hoffered, hunder]
        rfl
      · rw [enter_ne _ _ _ hnew] at hd ⊢
        exact h.whole hopen s d hd}

theorem Ordered.createEndpoint (h : n.Ordered) (localAddr : Addr) (remoteAddr : Option Addr)
    (owner : String) (protocol : Protocol) :
    (n.createEndpoint localAddr remoteAddr owner protocol).Ordered := by
  unfold DatagramNetwork.createEndpoint
  split
  · exact h
  · exact (h.enter rfl rfl).calm (calm_modify _ n.made rfl rfl id)

/-- One step of the network. -/
theorem ordered_step :
    Transition.Keeps step (fun n e => n.Faultless ∧ n.Separated e) Ordered := by
  intro n event n' hP h hstep
  cases event with
  | create localAddr remoteAddr owner protocol =>
    rw [eq_of_live hstep]
    exact h.createEndpoint localAddr remoteAddr owner protocol
  | sendto e data addr draws =>
    obtain ⟨he, heq⟩ := eq_of_liveOn hstep
    rw [heq]
    exact h.sendto hP.1 he hP.2
  | close e =>
    simp only [step, Option.ite_none_right_eq_some, Option.some.injEq] at hstep
    rw [← hstep.2]
    exact h.calm (n.calm_close e)
  | setProtocol e p =>
    rw [(eq_of_liveOn hstep).2]
    exact h.calm (calm_modify n e rfl rfl id)
  | crash host =>
    rw [eq_of_live hstep]
    exact h.calm (n.calm_crash host)
  | relink blocked =>
    rw [eq_of_live hstep]
    exact h.calm {Calm.refl n with}
  | shape change =>
    rw [eq_of_live hstep]
    exact {h with shaping := h.shaping.change change}
  | fault change =>
    rw [eq_of_live hstep]
    exact h.calm {Calm.refl n with}
  | tick t =>
    dsimp only [step] at hstep
    split at hstep
    next hc =>
      rw [eq_of_live hstep]
      exact {h with clock := hc.2.1, due := hc.2.2.2}
    next => cases hstep
  | finalize e =>
    dsimp only [step] at hstep
    split at hstep
    next =>
      rw [eq_of_live hstep]
      have hready : n.Calm {n with ready := n.ready.erase e} := {Calm.refl n with}
      exact h.calm (hready.trans (calm_finalize _ e))
    next => cases hstep
  | deliver t g =>
    dsimp only [step] at hstep
    split at hstep
    next hc =>
      rw [eq_of_live hstep]
      exact h.deliver (p := (t, g)) hc.1 hc.2
    next => cases hstep
  | closeLoop =>
    rw [eq_of_live hstep]
    exact {h with
      timers := fun _ hx => nomatch hx
      front := fun _ hx => nomatch hx
      due := fun _ hx => nomatch hx
      sorted := fun _ _ => .nil
      whole := fun hopen => nomatch hopen}

/-- While a loop runs and an endpoint is open, what it received of a flow is the first part
of what it was offered, in order; the rest is under way, each once, and none of it overdue. -/
theorem in_order {rounding : Rounding} {events : List Event}
    (hrun : Transition.run step (start rounding) events = some n)
    (hfaultless : Transition.Along step (fun n _ => n.Faultless) (start rounding) events)
    (hseparated : Transition.Along step Separated (start rounding) events) (s d : EndpointId)
    (hloop : n.loopClosed = false) (hopen : (n.endpoint d).closed = false) :
    n.offeredOn s d = n.receivedOn s d ++ (n.underway s d).map Prod.snd ∧
      (n.offeredOn s d).Nodup ∧ ∀ p ∈ n.underway s d, n.now ≤ p.1 := by
  have h : n.Ordered := ordered_step.run (hfaultless.and hseparated) (ordered_start rounding) hrun
  refine ⟨h.whole hloop s d hopen, ?_, fun p hp => h.due p (List.mem_filter.mp hp).1⟩
  have hnodup : (n.offered.map Datagram.number).Nodup := h.numbered ▸ List.nodup_range
  exact hnodup.of_map.filter _

/-- A server, a client that is connected to it, and two datagrams sent at once, with the
shortest delays. -/
def twoSends (latency : ℚ × ℚ) : List Event :=
  let draws : DatagramDraws := ⟨0, 0, (0, 0), (0, 0)⟩
  [.create ("10.0.0.1", 9000) none rootWorld ⟨0, false⟩,
    .create ("10.0.0.99", 40000) (some ("10.0.0.1", 9000)) rootWorld ⟨1, false⟩,
    .shape (.latency latency), .sendto 1 [1] none draws, .sendto 1 [2] none draws]

def sent (number : Nat) (byte : UInt8) : Datagram := ⟨number, 1, ("10.0.0.99", 40000), 0, [byte]⟩

theorem in_order_two_sends : ∃ n, Transition.run step (start .binary64)
      (twoSends (1 / 2048, 1 / 64) ++ [.tick (1 / 2048), .deliver (1 / 2048) (sent 0 1)]) = some n ∧
    n.offeredOn 1 0 = n.receivedOn 1 0 ++ (n.underway 1 0).map Prod.snd ∧
      (n.offeredOn 1 0).Nodup ∧ ∀ p ∈ n.underway 1 0, n.now ≤ p.1 := by
  have hrun : (Transition.run step (start .binary64)
      (twoSends (1 / 2048, 1 / 64) ++ [.tick (1 / 2048), .deliver (1 / 2048) (sent 0 1)])).any
        fun n => !n.loopClosed && !(n.endpoint 0).closed := by decide +kernel
  obtain ⟨n, hn, hopen⟩ := Option.any_eq_true _ _ |>.mp hrun
  rw [Bool.and_eq_true, Bool.not_eq_true', Bool.not_eq_true'] at hopen
  exact ⟨n, hn, in_order hn (by decide +kernel) (by decide +kernel) 1 0 hopen.1 hopen.2⟩

/-- From a time on, two datagrams are sent at once, both arrive at once, and the second is
served first, although no fault is switched on and the endpoint stays open. -/
def Swaps (time : ℚ) (latency : ℚ × ℚ) : Prop :=
  let events := .tick time :: twoSends latency ++ [.deliver time (sent 1 2), .deliver time (sent 0 1)]
  Transition.Along step (fun n _ => n.Faultless) (start .binary64) events ∧
  ∃ n, Transition.run step (start .binary64) events = some n ∧
    n.loopClosed = false ∧ (n.endpoint 0).closed = false ∧
    n.offeredOn 1 0 = [sent 0 1, sent 1 2] ∧ n.receivedOn 1 0 = [sent 1 2, sent 0 1]

theorem swaps_of_run {time : ℚ} {latency : ℚ × ℚ}
    (hfaultless : Transition.Along step (fun n _ => n.Faultless) (start .binary64)
      (.tick time :: twoSends latency ++ [.deliver time (sent 1 2), .deliver time (sent 0 1)]))
    (hrun : (Transition.run step (start .binary64)
      (.tick time :: twoSends latency ++ [.deliver time (sent 1 2), .deliver time (sent 0 1)])).any
      fun n => !n.loopClosed && !(n.endpoint 0).closed &&
        decide (n.offeredOn 1 0 = [sent 0 1, sent 1 2] ∧
          n.receivedOn 1 0 = [sent 1 2, sent 0 1])) : Swaps time latency := by
  obtain ⟨n, hn, hopen⟩ := Option.any_eq_true _ _ |>.mp hrun
  simp only [Bool.and_eq_true, Bool.not_eq_true', decide_eq_true_eq] at hopen
  exact ⟨hfaultless, n, hn, hopen.1.1, hopen.1.2, hopen.2⟩

/-- It does so with a shortest delay of zero. -/
theorem zero_latency_swaps : Swaps 0 (0, 0) :=
  swaps_of_run (by decide +kernel) (by decide +kernel)

/-- And with one that is positive, but too small for the clock. -/
example : Swaps 1 (1 / 2 ^ 60, 1 / 2 ^ 60) :=
  swaps_of_run (by decide +kernel) (by decide +kernel)

end DatagramNetwork

end Simloom
