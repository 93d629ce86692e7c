import Simloom.Net.InOrder

/-! Every datagram is accounted for, whatever the faults.

What is offered to the network is lost, goes on its way once, or goes twice; the network
counts what it lost and what it doubled. A copy on its way arrives at an endpoint that is
open, or is thrown away at one that was closed. So no protocol gets a datagram more than
twice, or one that was not sent to it, and while an endpoint is open nothing else is missing
than what was counted as dropped. -/
namespace Simloom.DatagramNetwork
open Theory
variable {n n' : DatagramNetwork}

/-! ### What carries no datagram -/

/-- The data and the senders that a protocol got. -/
def heard (t : SimDatagramTransport) : List (List UInt8 × Addr) :=
  t.calls.filterMap fun c => match c.2 with
    | .datagramReceived data source => some (data, source)
    | _ => none

/-- No fault is counted, and no protocol gets a datagram. -/
structure Silent (n n' : DatagramNetwork) : Prop where
  dropped : n'.counters.dropped = n.counters.dropped
  duplicated : n'.counters.duplicated = n.counters.duplicated
  reordered : n'.counters.reordered = n.counters.reordered
  heard : ∀ e, heard (n'.endpoint e) = heard (n.endpoint e)

theorem Silent.refl (n : DatagramNetwork) : n.Silent n := ⟨rfl, rfl, rfl, fun _ => rfl⟩

theorem Silent.trans {n'' : DatagramNetwork} (h : n.Silent n') (h' : n'.Silent n'') : n.Silent n'' where
  dropped := h'.dropped.trans h.dropped
  duplicated := h'.duplicated.trans h.duplicated
  reordered := h'.reordered.trans h.reordered
  heard := fun e => (h'.heard e).trans (h.heard e)

theorem silent_modify (n : DatagramNetwork) (e : EndpointId)
    {f : SimDatagramTransport → SimDatagramTransport}
    (hheard : heard (f (n.endpoint e)) = heard (n.endpoint e)) : n.Silent (n.modify e f) where
  dropped := rfl
  duplicated := rfl
  reordered := rfl
  heard := by
    intro x
    by_cases hx : x = e
    · subst hx
      simpa [modify] using hheard
    · simp [modify, hx]

theorem silent_forget (n : DatagramNetwork) (e : EndpointId) : n.Silent (n.forget e) := by
  unfold forget
  split
  · exact ⟨rfl, rfl, rfl, fun _ => rfl⟩
  · exact .refl n

theorem silent_kill (n : DatagramNetwork) (e : EndpointId) : n.Silent (n.kill e) :=
  (silent_modify n e rfl).trans (silent_forget _ e)

theorem silent_crash (n : DatagramNetwork) (host : String) : n.Silent (n.crash host) := by
  refine List.foldlRecOn _ _ (.refl n) fun m hm e _ => hm.trans ?_
  split
  · exact m.silent_kill e
  · exact .refl m

theorem silent_finalize (n : DatagramNetwork) (e : EndpointId) : n.Silent (n.finalize e) := by
  unfold finalize
  split
  · exact .refl n
  · refine ((silent_modify n e rfl).trans (silent_forget _ e)).trans (silent_modify _ e ?_)
    simp [heard, SimDatagramTransport.call]

theorem silent_close (n : DatagramNetwork) (e : EndpointId) : n.Silent (n.close e) := by
  unfold close
  split
  · exact .refl n
  · split
    · exact n.silent_kill e
    · exact {silent_modify n e (f := fun t => {t with closing := true}) rfl with}

/-! ### Sending -/

/-- So many copies of a datagram go on their way, and any of them may be held back. -/
structure Posts (g : Datagram) (copies : Nat) (n n' : DatagramNetwork) : Prop where
  endpoint : n'.endpoint = n.endpoint
  made : n'.made = n.made
  bound : n'.bound = n.bound
  offered : n'.offered = n.offered
  loopClosed : n'.loopClosed = n.loopClosed
  timers : n'.timers.map Prod.snd = n.timers.map Prod.snd ++ List.replicate copies g
  dropped : n'.counters.dropped = n.counters.dropped
  duplicated : n'.counters.duplicated = n.counters.duplicated
  reordered : n'.counters.reordered ≤ n.counters.reordered + copies

theorem launch_posts (g : Datagram) (src dst : String) (copies : List (Fin 64 × Fin 100)) (last : ℚ)
    (n : DatagramNetwork) : Posts g copies.length n (launch g src dst copies last n).1 := by
  induction copies generalizing last n with
  | nil => exact ⟨rfl, rfl, rfl, rfl, rfl, by simp [launch], rfl, rfl, le_rfl⟩
  | cons copy rest ih =>
    obtain ⟨step, reorder⟩ := copy
    have hreplicate : ∀ gs : List Datagram,
        gs ++ [g] ++ List.replicate rest.length g = gs ++ List.replicate (rest.length + 1) g := by
      intro gs
      rw [List.append_assoc, List.singleton_append, ← List.replicate_succ]
    unfold launch
    dsimp only
    split
    · generalize n.rounding.add (max _ last) _ = arrival
      have hrest := ih last ({n with timers := n.timers ++ [(arrival, g)]}.count fun c =>
        {c with reordered := c.reordered + 1})
      refine ⟨hrest.endpoint, hrest.made, hrest.bound, hrest.offered, hrest.loopClosed, ?_,
        hrest.dropped, hrest.duplicated, ?_⟩
      · rw [hrest.timers, List.length_cons, ← hreplicate]
        simp [count]
      · have hle := hrest.reordered
        simp only [count, List.length_cons] at hle ⊢
        omega
    · generalize max (n.rounding.add n.now _) _ = arrival
      have hrest := ih arrival {n with timers := n.timers ++ [(arrival, g)]}
      refine ⟨hrest.endpoint, hrest.made, hrest.bound, hrest.offered, hrest.loopClosed, ?_,
        hrest.dropped, hrest.duplicated, hrest.reordered.trans (by simp)⟩
      rw [hrest.timers, List.length_cons, ← hreplicate]
      simp

/-- What is offered is lost and counted, goes on its way, or goes twice and is counted. -/
theorem carry_cases (n : DatagramNetwork) (g : Datagram) (dst : Addr) (draws : DatagramDraws) :
    n.carry g dst draws = (n.count fun c => {c with dropped := c.dropped + 1}) ∨
    Posts g 1 n (n.carry g dst draws) ∨
    Posts g 2 (n.count fun c => {c with duplicated := c.duplicated + 1}) (n.carry g dst draws) := by
  have hlaunch := fun copies last m => launch_posts g (n.endpoint g.sender).owner (n.endpoint g.dest).owner
    copies last m
  unfold carry
  split
  · exact .inl rfl
  · right
    by_cases htwice : draws.duplication.val < n.faults.duplication
    · right
      simp only [htwice, if_true]
      exact {hlaunch _ _ _ with}
    · left
      simp only [htwice, if_false]
      exact {hlaunch _ _ _ with}

/-! ### The account -/

/-- `lost` and `doubled` are what the network counted, `wasted` the copies that came to an
endpoint that was closed. -/
structure Accounted (lost doubled wasted : List Datagram) (n : DatagramNetwork) : Prop where
  bound : ∀ a d, n.bound.get? a = some d → d < n.made
  dest : ∀ g ∈ n.offered, g.dest < n.made
  numbered : n.offered.map Datagram.number = List.range n.offered.length
  apart : (lost ++ doubled).Nodup
  among : ∀ g ∈ lost ++ doubled, g ∈ n.offered
  dropped : n.counters.dropped = lost.length
  duplicated : n.counters.duplicated = doubled.length
  reordered : n.counters.reordered + lost.length ≤ n.offered.length + doubled.length
  balance : ∀ g, n.offered.count g + doubled.count g = lost.count g + wasted.count g +
    (n.timers.map Prod.snd).count g + (n.endpoint g.dest).received.count g
  wasted : ∀ g ∈ wasted, (n.endpoint g.dest).closed = true ∨ n.loopClosed = true
  received : ∀ e, ∀ g ∈ (n.endpoint e).received, g.dest = e
  heard : ∀ e, heard (n.endpoint e) = (n.endpoint e).received.map fun g => (g.data, g.source)

variable {lost doubled wasted : List Datagram}

theorem accounted_start (rounding : Rounding) : (start rounding).Accounted [] [] [] where
  bound := fun _ _ h => absurd h (by simp [start, Dict.empty, Dict.get?, Dict.find])
  dest := fun _ h => absurd h List.not_mem_nil
  numbered := rfl
  apart := .nil
  among := fun _ h => absurd h List.not_mem_nil
  dropped := rfl
  duplicated := rfl
  reordered := le_rfl
  balance := fun _ => rfl
  wasted := fun _ h => absurd h List.not_mem_nil
  received := fun _ _ h => absurd h List.not_mem_nil
  heard := fun _ => rfl

theorem Accounted.calm (h : n.Accounted lost doubled wasted) (hc : n.Calm n') (hs : n.Silent n') :
    n'.Accounted lost doubled wasted where
  bound := fun a d hb => by
    rw [hc.made]
    exact h.bound a d (hc.bound a d hb)
  dest := by
    rw [hc.offered, hc.made]
    exact h.dest
  numbered := hc.offered ▸ h.numbered
  apart := h.apart
  among := hc.offered ▸ h.among
  dropped := hs.dropped.trans h.dropped
  duplicated := hs.duplicated.trans h.duplicated
  reordered := by
    rw [hs.reordered, hc.offered]
    exact h.reordered
  balance := fun g => by
    rw [hc.offered, hc.timers, hc.received]
    exact h.balance g
  wasted := fun g hg => by
    rw [hc.loopClosed]
    refine (h.wasted g hg).imp_left fun hclosed => ?_
    cases hopen : (n'.endpoint g.dest).closed with
    | true => rfl
    | false => rw [hc.closed g.dest hopen] at hclosed; cases hclosed
  received := fun e => hc.received e ▸ h.received e
  heard := fun e => by
    rw [hs.heard, hc.received]
    exact h.heard e

/-- Nothing is there of what was not offered. -/
theorem Accounted.absent (h : n.Accounted lost doubled wasted) {g : Datagram} (hg : g ∉ n.offered) :
    n.offered.count g = 0 ∧ doubled.count g = 0 ∧ lost.count g + wasted.count g +
      (n.timers.map Prod.snd).count g + (n.endpoint g.dest).received.count g = 0 := by
  have hoffered := List.count_eq_zero.mpr hg
  have hdoubled : doubled.count g = 0 :=
    List.count_eq_zero.mpr fun hmem => hg (h.among g (List.mem_append_right _ hmem))
  have hbalance := h.balance g
  exact ⟨hoffered, hdoubled, by omega⟩

/-- The next number was not given before. -/
theorem Accounted.fresh (h : n.Accounted lost doubled wasted) {g : Datagram}
    (hnumber : g.number = n.offered.length) : g ∉ n.offered := fun hmem => by
  have hin := List.mem_map_of_mem (f := Datagram.number) hmem
  rw [h.numbered, List.mem_range, hnumber] at hin
  exact Nat.lt_irrefl _ hin

/-- A datagram is offered: `l` and `d` hold it where it is lost or doubled. -/
theorem Accounted.offer (h : n.Accounted lost doubled wasted) {g : Datagram} {l d : List Datagram}
    {copies : Nat} (counters : DatagramCounters) (hnumber : g.number = n.offered.length)
    (hdest : g.dest < n.made) (hown : ∀ x ∈ l ++ d, x = g) (hnodup : (l ++ d).Nodup)
    (hcopies : copies + l.length = 1 + d.length)
    (hdropped : counters.dropped = n.counters.dropped + l.length)
    (hduplicated : counters.duplicated = n.counters.duplicated + d.length)
    (hreordered : counters.reordered = n.counters.reordered)
    (hp : Posts g copies {n with offered := n.offered ++ [g], counters := counters} n') :
    n'.Accounted (lost ++ l) (doubled ++ d) wasted where
  bound := by
    rw [hp.bound, hp.made]
    exact h.bound
  dest := by
    rw [hp.offered, hp.made]
    intro x hx
    rcases List.mem_append.mp hx with hx | hx
    · exact h.dest x hx
    · rw [List.mem_singleton.mp hx]
      exact hdest
  numbered := by
    rw [hp.offered]
    simp [List.range_succ, h.numbered, hnumber]
  apart := by
    have hperm : (lost ++ l ++ (doubled ++ d)).Perm (lost ++ doubled ++ (l ++ d)) := by
      simp only [List.append_assoc]
      exact (List.perm_append_comm_assoc l doubled d).append_left lost
    rw [hperm.nodup_iff]
    refine List.nodup_append.mpr ⟨h.apart, hnodup, fun x hx y hy hxy => ?_⟩
    rw [hxy, hown y hy] at hx
    exact h.fresh hnumber (h.among g hx)
  among := by
    rw [hp.offered]
    intro x hx
    have hcases : x ∈ lost ++ doubled ∨ x ∈ l ++ d := by
      simp only [List.mem_append] at hx ⊢
      tauto
    rcases hcases with hx | hx
    · exact List.mem_append_left _ (h.among x hx)
    · exact List.mem_append_right _ (List.mem_singleton.mpr (hown x hx))
  dropped := by
    rw [hp.dropped, hdropped, h.dropped, List.length_append]
  duplicated := by
    rw [hp.duplicated, hduplicated, h.duplicated, List.length_append]
  reordered := by
    have hle := hp.reordered
    have hold := h.reordered
    rw [hreordered] at hle
    rw [hp.offered]
    simp only [List.length_append, List.length_singleton]
    omega
  balance := fun x => by
    have hold := h.balance x
    rw [hp.offered, hp.timers, hp.endpoint]
    simp only [List.count_append, List.count_replicate, List.count_singleton]
    have hcount : ∀ xs : List Datagram, (∀ y ∈ xs, y = g) →
        xs.count x = if g == x then xs.length else 0 := by
      intro xs hxs
      rw [List.eq_replicate_of_mem hxs, List.count_replicate, List.length_replicate]
    have hl := hcount l fun y hy => hown y (List.mem_append_left _ hy)
    have hd := hcount d fun y hy => hown y (List.mem_append_right _ hy)
    rw [hl, hd]
    split <;> omega
  wasted := by
    rw [hp.endpoint, hp.loopClosed]
    exact h.wasted
  received := by
    rw [hp.endpoint]
    exact h.received
  heard := by
    rw [hp.endpoint]
    exact h.heard

theorem Posts.refl (g : Datagram) (n : DatagramNetwork) : Posts g 0 n n :=
  ⟨rfl, rfl, rfl, rfl, rfl, by simp, rfl, rfl, le_rfl⟩

theorem Accounted.carry (h : n.Accounted lost doubled wasted) {g : Datagram}
    (hnumber : g.number = n.offered.length) (hdest : g.dest < n.made) (dst : Addr)
    (draws : DatagramDraws) : ∃ lost doubled,
      (({n with offered := n.offered ++ [g]}).carry g dst draws).Accounted lost doubled wasted := by
  rcases carry_cases {n with offered := n.offered ++ [g]} g dst draws with heq | hp | hp
  · rw [heq]
    refine ⟨lost ++ [g], doubled ++ [], ?_⟩
    exact h.offer {n.counters with dropped := n.counters.dropped + 1} hnumber hdest (by simp) (by simp)
      rfl rfl rfl rfl (Posts.refl g _)
  · refine ⟨lost ++ [], doubled ++ [], ?_⟩
    exact h.offer n.counters hnumber hdest (by simp) (by simp) rfl rfl rfl rfl hp
  · refine ⟨lost ++ [], doubled ++ [g], ?_⟩
    exact h.offer {n.counters with duplicated := n.counters.duplicated + 1} hnumber hdest (by simp)
      (by simp) rfl rfl rfl rfl hp

theorem Accounted.sendto (h : n.Accounted lost doubled wasted) (e : EndpointId) (data : List UInt8)
    (addr : Option Addr) (draws : DatagramDraws) :
    ∃ lost doubled, (n.sendto e data addr draws).Accounted lost doubled wasted := by
  have hcount : (n.count fun c => {c with
      bytesSent := c.bytesSent + data.length, chunksSent := c.chunksSent + 1}).Accounted lost doubled
      wasted := h.calm {Calm.refl n with} ⟨rfl, rfl, rfl, fun _ => rfl⟩
  unfold DatagramNetwork.sendto
  split
  · exact ⟨lost, doubled, h⟩
  · cases addr.or (n.endpoint e).remoteAddr with
    | none => exact ⟨lost, doubled, h⟩
    | some dst =>
      dsimp only
      unfold routeDatagram
      dsimp only
      split
      · exact ⟨lost, doubled, hcount⟩
      · next dest hbound =>
        split
        · exact ⟨lost, doubled, hcount⟩
        · exact hcount.carry rfl (hcount.bound dst dest hbound) dst draws

/-- A copy arrives, or is thrown away. -/
theorem Accounted.deliver (h : n.Accounted lost doubled wasted) {t : ℚ} {g : Datagram}
    (hg : (t, g) ∈ n.timers) : ∃ wasted,
      (({n with timers := n.timers.erase (t, g)}).deliver g).Accounted lost doubled wasted := by
  have hcount : ∀ x, (n.timers.map Prod.snd).count x =
      ((n.timers.erase (t, g)).map Prod.snd).count x + [g].count x := by
    intro x
    have hperm := (List.perm_cons_erase hg).map Prod.snd
    rw [hperm.count_eq, List.map_cons, List.count_cons, List.count_singleton]
  unfold DatagramNetwork.deliver
  split
  · next hclosed =>
    refine ⟨wasted ++ [g], {h with balance := fun x => ?_, wasted := fun x hx => ?_}⟩
    · have hold := h.balance x
      rw [hcount] at hold
      show n.offered.count x + _ = _ + (wasted ++ [g]).count x +
        ((n.timers.erase (t, g)).map Prod.snd).count x + (n.endpoint x.dest).received.count x
      rw [List.count_append]
      omega
    · rcases List.mem_append.mp hx with hx | hx
      · exact h.wasted x hx
      · rw [List.mem_singleton.mp hx]
        exact .inl hclosed
  · have hdest : ∀ e, ({n with timers := n.timers.erase (t, g)}.modify g.dest fun t =>
        {t.call (.datagramReceived g.data g.source) with received := t.received ++ [g]}).endpoint e =
        if e = g.dest then {(n.endpoint e).call (.datagramReceived g.data g.source) with
          received := (n.endpoint e).received ++ [g]} else n.endpoint e := by
      intro e
      by_cases he : e = g.dest
      · subst he
        simp [modify]
      · simp [modify, he]
    refine ⟨wasted, {h with balance := ?_, wasted := ?_, received := ?_, heard := ?_}⟩
    · intro x
      have hold := h.balance x
      rw [hcount] at hold
      rw [hdest]
      show n.offered.count x + _ = _ + _ + ((n.timers.erase (t, g)).map Prod.snd).count x + _
      split
      · rw [List.count_append]
        omega
      · next hne =>
        have hzero : [g].count x = 0 :=
          List.count_eq_zero.mpr fun hx => hne (congrArg Datagram.dest (List.mem_singleton.mp hx))
        omega
    · intro x hx
      rw [hdest]
      split <;> exact h.wasted x hx
    · intro e
      rw [hdest]
      split
      · next he =>
        intro x hx
        rcases List.mem_append.mp hx with hx | hx
        · exact h.received e x hx
        · rw [List.mem_singleton.mp hx, he]
      · exact h.received e
    · intro e
      have hold := h.heard e
      rw [hdest]
      split
      · simp only [DatagramNetwork.heard, SimDatagramTransport.call, List.filterMap_append, List.map_append] at hold ⊢
        rw [hold]
        rfl
      · exact hold

/-! ### Runs -/

theorem Accounted.enter (h : n.Accounted lost doubled wasted) {localAddr : Addr}
    {t : SimDatagramTransport} (hreceived : t.received = []) (hcalls : t.calls = []) :
    (n.enter localAddr t).Accounted lost doubled wasted :=
  have hne : ∀ g ∈ n.offered, (n.enter localAddr t).endpoint g.dest = n.endpoint g.dest :=
    fun g hg => enter_ne n localAddr t (h.dest g hg).ne
  {h with
    bound := by
      intro a d hb
      have hb : (n.bound.set localAddr n.made).get? a = some d := hb
      rw [Dict.get?_set] at hb
      split at hb
      · rw [← Option.some.inj hb]
        exact Nat.lt_succ_self _
      · exact Nat.lt_succ_of_lt (h.bound a d hb)
    dest := fun g hg => Nat.lt_succ_of_lt (h.dest g hg)
    balance := by
      intro g
      have hold := h.balance g
      show n.offered.count g + _ = _ + _ + (n.timers.map Prod.snd).count g + _
      by_cases hmade : g.dest = n.made
      · rw [hmade, enter_made, hreceived]
        obtain ⟨hoffered, hdoubled, hrest⟩ := h.absent fun hg => absurd hmade (h.dest g hg).ne
        rw [List.count_nil]
        omega
      · rw [enter_ne n localAddr t hmade]
        exact hold
    wasted := by
      intro g hg
      have hoffered : g ∈ n.offered := by
        by_contra hnone
        have hpos := List.count_pos_iff.mpr hg
        have hrest := (h.absent hnone).2.2
        omega
      rw [hne g hoffered]
      exact h.wasted g hg
    received := by
      intro e
      by_cases he : e = n.made
      · rw [he, enter_made, hreceived]
        exact fun _ hg => absurd hg List.not_mem_nil
      · rw [enter_ne n localAddr t he]
        exact h.received e
    heard := by
      intro e
      by_cases he : e = n.made
      · rw [he, enter_made, hreceived]
        simp [DatagramNetwork.heard, hcalls]
      · rw [enter_ne n localAddr t he]
        exact h.heard e}

theorem Accounted.createEndpoint (h : n.Accounted lost doubled wasted) (localAddr : Addr)
    (remoteAddr : Option Addr) (owner : String) (protocol : Protocol) :
    (n.createEndpoint localAddr remoteAddr owner protocol).Accounted lost doubled wasted := by
  unfold DatagramNetwork.createEndpoint
  split
  · exact h
  · refine (h.enter rfl rfl).calm (calm_modify _ n.made rfl rfl id) (silent_modify _ n.made ?_)
    simp [DatagramNetwork.heard, SimDatagramTransport.call]

/-- One step of the network. -/
theorem accounted_step : Transition.Keeps step (fun _ _ => True)
    fun n => ∃ lost doubled wasted, n.Accounted lost doubled wasted := by
  rintro n event n' - ⟨lost, doubled, wasted, h⟩ hstep
  cases event with
  | create localAddr remoteAddr owner protocol =>
    rw [eq_of_live hstep]
    exact ⟨lost, doubled, wasted, h.createEndpoint localAddr remoteAddr owner protocol⟩
  | sendto e data addr draws =>
    rw [(eq_of_liveOn hstep).2]
    obtain ⟨lost, doubled, h⟩ := h.sendto e data addr draws
    exact ⟨lost, doubled, wasted, h⟩
  | close e =>
    simp only [step, Option.ite_none_right_eq_some, Option.some.injEq] at hstep
    rw [← hstep.2]
    exact ⟨lost, doubled, wasted, h.calm (n.calm_close e) (n.silent_close e)⟩
  | setProtocol e p =>
    rw [(eq_of_liveOn hstep).2]
    exact ⟨lost, doubled, wasted, h.calm (calm_modify n e rfl rfl id) (silent_modify n e rfl)⟩
  | crash host =>
    rw [eq_of_live hstep]
    exact ⟨lost, doubled, wasted, h.calm (n.calm_crash host) (n.silent_crash host)⟩
  | relink blocked =>
    rw [eq_of_live hstep]
    exact ⟨lost, doubled, wasted, h.calm {Calm.refl n with} ⟨rfl, rfl, rfl, fun _ => rfl⟩⟩
  | shape change =>
    rw [eq_of_live hstep]
    exact ⟨lost, doubled, wasted, {h with}⟩
  | fault change =>
    rw [eq_of_live hstep]
    exact ⟨lost, doubled, wasted, h.calm {Calm.refl n with} ⟨rfl, rfl, rfl, fun _ => rfl⟩⟩
  | tick t =>
    dsimp only [step] at hstep
    split at hstep
    · rw [eq_of_live hstep]
      exact ⟨lost, doubled, wasted, {h with}⟩
    · cases hstep
  | finalize e =>
    dsimp only [step] at hstep
    split at hstep
    · rw [eq_of_live hstep]
      have hready : n.Calm {n with ready := n.ready.erase e} := {Calm.refl n with}
      have hsilent : n.Silent {n with ready := n.ready.erase e} := ⟨rfl, rfl, rfl, fun _ => rfl⟩
      exact ⟨lost, doubled, wasted, h.calm (hready.trans (calm_finalize _ e))
        (hsilent.trans (silent_finalize _ e))⟩
    · cases hstep
  | deliver t g =>
    dsimp only [step] at hstep
    split at hstep
    · next hdue =>
      rw [eq_of_live hstep]
      obtain ⟨wasted, h⟩ := h.deliver hdue.1
      exact ⟨lost, doubled, wasted, h⟩
    · cases hstep
  | closeLoop =>
    rw [eq_of_live hstep]
    refine ⟨lost, doubled, wasted ++ n.timers.map Prod.snd, {h with balance := fun g => ?_, wasted := ?_}⟩
    · have hold := h.balance g
      show n.offered.count g + _ = _ + (wasted ++ n.timers.map Prod.snd).count g + 0 +
        (n.endpoint g.dest).received.count g
      rw [List.count_append]
      omega
    · exact fun _ _ => .inr rfl

/-- How many copies of a datagram the network let pass. -/
def passed (lost doubled : List Datagram) (g : Datagram) : Nat :=
  if g ∈ lost then 0 else if g ∈ doubled then 2 else 1

/-- What there is to say of all datagrams. The network's counters are the numbers of offered
datagrams that it lost and doubled, none of them both. No more copies of a datagram are under
way and received than were let pass, and no fewer while the loop runs and the endpoint is
open. What a protocol is called with is what was received at its endpoint, each datagram where
it was sent, and nothing that was not offered. -/
structure Accounts (n : DatagramNetwork) : Prop where
  offered : n.offered.Nodup
  fates : ∃ lost doubled, (lost ++ doubled).Nodup ∧ (∀ g ∈ lost ++ doubled, g ∈ n.offered) ∧
    n.counters.dropped = lost.length ∧ n.counters.duplicated = doubled.length ∧
    ∀ g ∈ n.offered,
      (n.timers.map Prod.snd).count g + (n.endpoint g.dest).received.count g ≤ passed lost doubled g ∧
      (n.loopClosed = false → (n.endpoint g.dest).closed = false →
        (n.timers.map Prod.snd).count g + (n.endpoint g.dest).received.count g =
          passed lost doubled g)
  reordered : n.counters.reordered + n.counters.dropped ≤ n.offered.length + n.counters.duplicated
  heard : ∀ e, heard (n.endpoint e) = (n.endpoint e).received.map (fun g => (g.data, g.source)) ∧
    ∀ g ∈ (n.endpoint e).received, g.dest = e ∧ g ∈ n.offered

/-- **Every datagram is accounted for**, in every run, with any faults. -/
theorem datagrams_accounted {rounding : Rounding} {events : List Event}
    (hrun : Transition.run step (start rounding) events = some n) : n.Accounts := by
  obtain ⟨lost, doubled, wasted, h⟩ := accounted_step.run
    (Transition.along_of_forall (fun _ _ _ => trivial) _) ⟨[], [], [], accounted_start rounding⟩ hrun
  have hnodup : n.offered.Nodup := by
    have hnumbers : (n.offered.map Datagram.number).Nodup := h.numbered ▸ List.nodup_range
    exact hnumbers.of_map
  obtain ⟨hlost, hdoubled, hapart⟩ := List.nodup_append.mp h.apart
  refine ⟨hnodup, ⟨lost, doubled, h.apart, h.among, h.dropped, h.duplicated, fun g hg => ?_⟩, ?_,
    fun e => ⟨h.heard e, fun g hg => ⟨h.received e g hg, ?_⟩⟩⟩
  · have hbalance := h.balance g
    have hpassed : 1 + doubled.count g = lost.count g + passed lost doubled g := by
      unfold passed
      by_cases hl : g ∈ lost
      · have hd : g ∉ doubled := fun hd => hapart g hl g hd rfl
        rw [if_pos hl, List.count_eq_one_of_mem hlost hl, List.count_eq_zero.mpr hd]
      · rw [if_neg hl, List.count_eq_zero.mpr hl]
        by_cases hd : g ∈ doubled
        · rw [if_pos hd, List.count_eq_one_of_mem hdoubled hd]
        · rw [if_neg hd, List.count_eq_zero.mpr hd]
    rw [List.count_eq_one_of_mem hnodup hg] at hbalance
    refine ⟨by omega, fun hloop hopen => ?_⟩
    have hwasted : wasted.count g = 0 := List.count_eq_zero.mpr fun hw => by
      rcases h.wasted g hw with hclosed | hclosed
      · rw [hopen] at hclosed
        cases hclosed
      · rw [hloop] at hclosed
        cases hclosed
    omega
  · rw [h.dropped, h.duplicated]
    exact h.reordered
  · by_contra hnone
    have hpos := List.count_pos_iff.mpr hg
    have hrest := (h.absent hnone).2.2
    rw [h.received e g hg] at hrest
    omega

/-- Two datagrams are doubled, and of each a copy arrives. -/
def doubledSends : List Event :=
  .fault (.duplication 100) :: twoSends (0, 0) ++ [.deliver 0 (sent 1 2), .deliver 0 (sent 0 1)]

theorem datagrams_accounted_doubledSends :
    ∃ n, Transition.run step (start .binary64) doubledSends = some n ∧ n.Accounts := by
  have hrun : (Transition.run step (start .binary64) doubledSends).isSome := by decide +kernel
  obtain ⟨n, hn⟩ := Option.isSome_iff_exists.mp hrun
  exact ⟨n, hn, datagrams_accounted hn⟩

end Simloom.DatagramNetwork
