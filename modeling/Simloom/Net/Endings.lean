import Simloom.Net.Callbacks

/-! How transports end.

From `connected_pair` to the closed loop every transport leads a sound life, so its
callbacks are in order and it is registered as live exactly while it is started and not
closed. -/
namespace Simloom
open Theory

namespace SimNetwork
variable {n n' : SimNetwork} {e x : EndId} {due : Option Protocol} {keep : Prop}

/-! ### The closed loop -/

theorem refuse_leads (n : SimNetwork) : Leads keep due e n n.refuse := .act (a := .forget) rfl rfl nofun

theorem WellFormed.refuse (h : n.WellFormed) : n.refuse.WellFormed :=
  { h with
    ready := fun _ hcb => absurd hcb List.not_mem_nil
    finalizing := fun _ hx => absurd hx List.not_mem_nil
    timers := fun _ ht => absurd ht List.not_mem_nil }

/-- What keeps the network well formed and leads every life on. -/
structure Sane (keep : Prop) (due : Option Protocol) (e : EndId) (n n' : SimNetwork) : Prop where
  wellFormed : n'.WellFormed
  leads : Leads keep due e n n'

theorem dropDead_sane (host : String) {ends : List EndId} {n : SimNetwork} (h : n.WellFormed)
    (hends : ∀ x ∈ ends, x.pair < n.pairs) : Sane keep due e n (dropDead host ends n) := by
  induction ends generalizing n with
  | nil => exact ⟨h, .silent (.refl n)⟩
  | cons x rest ih =>
    have hx := hends x List.mem_cons_self
    have hrest : ∀ y ∈ rest, y.pair < n.pairs := fun y hy => hends y (List.mem_cons_of_mem x hy)
    have hkill := h.kill hx
    unfold dropDead
    split
    · split
      · obtain ⟨hw, hl⟩ := ih hkill hrest
        exact ⟨hw, (kill_leads n x).trans hl⟩
      · exact ⟨hkill, kill_leads n x⟩
    · exact ih h hrest

theorem releaseDead_sane {ends : List EndId} {n : SimNetwork} (h : n.WellFormed)
    (hends : ∀ x ∈ ends, x.pair < n.pairs) : Sane keep due e n (releaseDead ends n) := by
  induction ends generalizing n with
  | nil => exact ⟨h, .silent (.refl n)⟩
  | cons x rest ih =>
    have hx := hends x List.mem_cons_self
    have hrest := ih h fun y hy => hends y (List.mem_cons_of_mem x hy)
    unfold releaseDead
    split
    · exact hrest
    · split
      · exact hrest
      next item held _ =>
        have hpop : Silent n (n.modify x fun t => {t with held := held}) :=
          silent_modify n x (fun _ => rfl) (fun _ => rfl) fun _ => rfl
        have hw := (h.modify (f := fun t => {t with held := held}) hx rfl id).transmit (e := x) hx item
        exact ⟨hw.refuse, (Leads.silent (hpop.trans (silent_transmit _ x item))).trans (refuse_leads _)⟩

theorem stepDead_sane {ev : Event} (h : n.WellFormed) (hs : n.stepDead ev = some n')
    (hconnect : ∀ co so c s, ev ≠ .connect co so c s) (hkeep : keep → Retains e ev) :
    Sane keep due e n n' := by
  have hother (hs : (if ev.ofProgram then (n.step ev).map refuse else none) = some n') :
      Sane keep due e n n' := by
    obtain ⟨hprogram, hs⟩ := Option.ite_none_right_eq_some.mp hs
    obtain ⟨m, hm, rfl⟩ := Option.map_eq_some_iff.mp hs
    have hw := keeps_wellFormed (fun _ _ => True) n ev m trivial h hm
    exact ⟨hw.refuse, (program_leads hm hprogram hconnect hkeep).trans (refuse_leads m)⟩
  cases ev with
  | close x =>
    obtain ⟨_, hx, rfl⟩ := callOn_some hs
    unfold closeDead
    split
    · exact ⟨h, .silent (.refl n)⟩
    · exact ⟨h.kill hx, kill_leads n x⟩
  | forceClose x error =>
    obtain ⟨_, hx, rfl⟩ := callOn_some hs
    unfold forceCloseDead
    split
    · exact ⟨h, .silent (.refl n)⟩
    · exact ⟨h.kill hx, kill_leads n x⟩
  | crash host => exact (call_some hs).2 ▸ dropDead_sane host h h.listed
  | unblock src dst =>
    have hblocked : Silent n {n with blocked := n.blocked.filter (· ≠ (src, dst))} :=
      ⟨rfl, fun _ _ => rfl⟩
    have hw : WellFormed {n with blocked := n.blocked.filter (· ≠ (src, dst))} := { h with }
    have hsane : Sane keep due e _ _ := releaseDead_sane hw h.listed
    exact (call_some hs).2 ▸ ⟨hsane.wellFormed, (Leads.silent hblocked).trans hsane.leads⟩
  | heal =>
    have hblocked : Silent n {n with blocked := []} := ⟨rfl, fun _ _ => rfl⟩
    have hw : WellFormed {n with blocked := []} := { h with }
    have hsane : Sane keep due e _ _ := releaseDead_sane hw h.listed
    exact (call_some hs).2 ▸ ⟨hsane.wellFormed, (Leads.silent hblocked).trans hsane.leads⟩
  | connect clientOwner serverOwner client server => exact absurd rfl (hconnect _ _ _ _)
  | write | writeEof | pauseReading | resumeReading | setProtocol | block | partition | resetConnections
  | shape | tick | ready | timer | advance | returned | eofReturned | bufferReturned | raised =>
    exact hother hs

/-! ### A new pair -/

/-- `connected_pair` at once is `connected_pair` in stages. -/
theorem connectedPair_eq (n : SimNetwork) (clientOwner serverOwner : String)
    (client server : Protocol) : n.connectedPair clientOwner serverOwner client server =
      (n.pairUp clientOwner serverOwner client server).connectionMade ⟨n.pairs, false⟩ client := rfl

theorem pairUp_transport (n : SimNetwork) (clientOwner serverOwner : String)
    (client server : Protocol) (x : EndId) :
    (n.pairUp clientOwner serverOwner client server).transport x =
      if x = ⟨n.pairs, true⟩ then (SimTransport.new serverOwner server).call server .connectionMade
      else if x = ⟨n.pairs, false⟩ then .new clientOwner client
      else n.transport x := by
  by_cases hs : x = ⟨n.pairs, true⟩
  · simp [pairUp, modify, hs]
  · by_cases hc : x = ⟨n.pairs, false⟩
    · simp [pairUp, modify, hc]
    · simp [pairUp, modify, hs, hc]

/-- Other than in what its client was called the pair is that of `connected_pair` at once. -/
theorem pairUp_eq (n : SimNetwork) (clientOwner serverOwner : String) (client server : Protocol) :
    n.pairUp clientOwner serverOwner client server =
      (n.connectedPair clientOwner serverOwner client server).modify ⟨n.pairs, false⟩
        fun t => {t with calls := []} := by
  have htransport : (n.pairUp clientOwner serverOwner client server).transport =
      ((n.connectedPair clientOwner serverOwner client server).modify ⟨n.pairs, false⟩
        fun t => {t with calls := []}).transport := by
    funext x
    by_cases hc : x = ⟨n.pairs, false⟩
    · rw [hc, modify_self, connectedPair_eq, connectionMade, modify_self, pairUp_transport]
      simp [SimTransport.new, SimTransport.call]
    · rw [modify_of_ne hc, connectedPair_eq, connectionMade, modify_of_ne hc]
  exact congrArg (fun f => {n.pairUp clientOwner serverOwner client server with transport := f}) htransport

theorem WellFormed.pairUp (h : n.WellFormed) (clientOwner serverOwner : String)
    (client server : Protocol) : (n.pairUp clientOwner serverOwner client server).WellFormed := by
  rw [pairUp_eq]
  exact (h.connectedPair clientOwner serverOwner client server).modify (Nat.lt_succ_self _) rfl id

/-- Nothing is known of an endpoint before it is made. -/
theorem WellFormed.unknown (h : n.WellFormed) (hx : n.pairs ≤ x.pair) :
    n.live.count x = 0 ∧ n.ready.filterMap (Callback.losing x) = [] ∧ n.activity.pumping x = none := by
  refine ⟨List.count_eq_zero.mpr fun hlive => ?_, List.filterMap_eq_nil_iff.mpr fun cb hcb => ?_,
    pumping_elsewhere fun hat => ?_⟩
  · have := h.listed x hlive
    omega
  · have hpair := (h.ready cb hcb).1
    cases cb with
    | connectionLost y p error =>
      have hne : y ≠ x := fun hyx => by
        rw [← hyx] at hx
        exact absurd hpair (Nat.not_lt.mpr hx)
      exact if_neg hne
    | arrive | pump | finalize | resetByPeer => rfl
  · have := h.activity x hat
    omega

/-- A new endpoint is listed once, and all else of it is what it was made with. -/
theorem life_pairUp_new (h : n.WellFormed) (clientOwner serverOwner : String)
    (client server : Protocol) (b : Bool) {t : SimTransport}
    (ht : (n.pairUp clientOwner serverOwner client server).transport ⟨n.pairs, b⟩ = t) :
    (n.pairUp clientOwner serverOwner client server).life due ⟨n.pairs, b⟩ =
      ⟨t.protocol, due, t.closed, 1, [], none, t.calls.map fun c => (c.1, c.2.role)⟩ := by
  obtain ⟨hlive, hready, hactivity⟩ := h.unknown (x := ⟨n.pairs, b⟩) le_rfl
  have hlisted : (n.live ++ [(⟨n.pairs, false⟩ : EndId), ⟨n.pairs, true⟩]).count ⟨n.pairs, b⟩ = 1 := by
    rw [List.count_append, hlive]
    cases b <;> simp
  unfold life
  rw [ht]
  show Life.mk _ _ _ ((n.live ++ [(⟨n.pairs, false⟩ : EndId), ⟨n.pairs, true⟩]).count _)
    (n.ready.filterMap _) (n.activity.pumping _) _ = _
  rw [hlisted, hready, hactivity]

theorem life_pairUp_client (h : n.WellFormed) (clientOwner serverOwner : String)
    (client server : Protocol) :
    (n.pairUp clientOwner serverOwner client server).life (some client) ⟨n.pairs, false⟩ =
      .untold client := by
  rw [life_pairUp_new h clientOwner serverOwner client server false
    (t := .new clientOwner client) (by simp [pairUp_transport])]
  rfl

theorem life_pairUp_server (h : n.WellFormed) (clientOwner serverOwner : String)
    (client server : Protocol) :
    (n.pairUp clientOwner serverOwner client server).life none ⟨n.pairs, true⟩ = .told server := by
  rw [life_pairUp_new h clientOwner serverOwner client server true
    (t := (SimTransport.new serverOwner server).call server .connectionMade)
    (by simp [pairUp_transport])]
  rfl

theorem life_pairUp_old (clientOwner serverOwner : String) (client server : Protocol)
    (hx : x.pair < n.pairs) :
    (n.pairUp clientOwner serverOwner client server).life due x = n.life due x := by
  have hne (server : Bool) : x ≠ ⟨n.pairs, server⟩ := fun hxe => by
    rw [hxe] at hx
    exact absurd hx (Nat.lt_irrefl _)
  have hlisted : (n.live ++ [(⟨n.pairs, false⟩ : EndId), ⟨n.pairs, true⟩]).count x = n.live.count x := by
    rw [List.count_append]
    simp [Ne.symm (hne _)]
  unfold life
  rw [pairUp_transport, if_neg (hne true), if_neg (hne false)]
  show Life.mk _ _ _ ((n.live ++ [(⟨n.pairs, false⟩ : EndId), ⟨n.pairs, true⟩]).count _) _ _ _ = _
  rw [hlisted]
  rfl

end SimNetwork

/-! ### Runs -/

namespace Lifecycle
variable {l l' : Lifecycle} {e : EndId} {keep : Prop}

/-- The protocol whose `connection_made` an endpoint still waits for. -/
def due (l : Lifecycle) (e : EndId) : Option Protocol :=
  l.pairing.findSome? fun p => if p.client = e ∧ p.told = false then some p.protocol else none

def life (l : Lifecycle) (e : EndId) : Life := l.network.life (l.due e) e

structure WellFormed (l : Lifecycle) : Prop where
  network : l.network.WellFormed
  clients : (l.pairing.map Pairing.client).Nodup
  made : ∀ p ∈ l.pairing, p.client.pair < l.network.pairs ∧ p.client.server = false

theorem wellFormed_start (draws : Nat → Fin 64 × Fin 100) : (start draws).WellFormed :=
  ⟨SimNetwork.wellFormed_start draws, List.nodup_nil, fun _ hp => absurd hp List.not_mem_nil⟩

/-- The program does not replace the protocol of an endpoint. -/
def Retains (e : EndId) (_ : Lifecycle) : Event → Prop
  | .network ev => SimNetwork.Retains e ev
  | _ => True

/-- A move is a step of the network, or one that the closed loop leaves to the program. -/
theorem move_cases {ev : SimNetwork.Event} {n : SimNetwork} (hs : l.move ev = some n) :
    (∀ co so c s, ev ≠ .connect co so c s) ∧
      (l.loopClosed = true ∧ l.network.stepDead ev = some n ∨
        l.loopClosed = false ∧ l.network.step ev = some n ∧ (ev.ofProgram = true ∨ l.pairing = [])) := by
  have hconnect (co so : String) (c s : Protocol) : ev ≠ .connect co so c s := fun hev => by
    rw [hev] at hs
    cases hs
  refine ⟨hconnect, ?_⟩
  have hmove : (if l.loopClosed then l.network.stepDead ev
      else if ev.ofProgram ∨ l.pairing = [] then l.network.step ev else none) = some n := by
    cases ev with
    | connect co so c s => exact absurd rfl (hconnect co so c s)
    | _ => exact hs
  split at hmove
  next hdead => exact .inl ⟨hdead, hmove⟩
  next hdead =>
    obtain ⟨hallowed, hstep⟩ := Option.ite_none_right_eq_some.mp hmove
    exact .inr ⟨Bool.eq_false_iff.mpr hdead, hstep, hallowed⟩

/-- A move in the network leads every life on. -/
theorem move_sane (h : l.WellFormed) {ev : SimNetwork.Event} {n : SimNetwork} (hs : l.move ev = some n)
    (hkeep : keep → SimNetwork.Retains e ev) : l.network.Sane keep (l.due e) e n := by
  obtain ⟨hconnect, ⟨_, hstep⟩ | ⟨_, hstep, hallowed⟩⟩ := move_cases hs
  · exact SimNetwork.stepDead_sane h.network hstep hconnect hkeep
  · refine ⟨SimNetwork.keeps_wellFormed (fun _ _ => True) l.network ev n trivial h.network hstep, ?_⟩
    cases hprogram : ev.ofProgram with
    | true => exact SimNetwork.program_leads hstep hprogram hconnect hkeep
    | false =>
      have hnone : l.pairing = [] := hallowed.resolve_left (by rw [hprogram]; exact Bool.false_ne_true)
      have hdue : l.due e = none := by
        unfold due
        rw [hnone]
        rfl
      rw [hdue]
      exact SimNetwork.loop_leads h.network hstep hprogram

theorem keeps_wellFormed (P : Lifecycle → Event → Prop) : Transition.Keeps step P WellFormed := by
  intro l ev l' _ h hs
  cases ev with
  | connect clientOwner serverOwner client server =>
    obtain ⟨_, hs⟩ := Option.ite_none_right_eq_some.mp hs
    refine Option.some.inj hs ▸ ⟨h.network.pairUp _ _ _ _, ?_, fun p hp => ?_⟩
    · refine List.nodup_cons.mpr ⟨fun hmem => ?_, h.clients⟩
      obtain ⟨p, hp, hclient⟩ := List.mem_map.mp hmem
      have hlt := (h.made p hp).1
      rw [hclient] at hlt
      exact Nat.lt_irrefl _ hlt
    · rcases List.mem_cons.mp hp with rfl | hp
      · exact ⟨Nat.lt_succ_self _, rfl⟩
      · exact ⟨Nat.lt_succ_of_lt (h.made p hp).1, (h.made p hp).2⟩
  | made =>
    obtain ⟨network, pairing, loopClosed⟩ := l
    cases pairing with
    | nil => cases hs
    | cons p rest =>
      have hp := h.made p List.mem_cons_self
      have hrest : ∀ q ∈ rest, q.client.pair < network.pairs ∧ q.client.server = false :=
        fun q hq => h.made q (List.mem_cons_of_mem p hq)
      by_cases htold : p.told = true
      · obtain rfl := Option.some.inj ((if_pos htold).symm.trans hs)
        exact ⟨h.network, (List.nodup_cons.mp h.clients).2, hrest⟩
      · obtain rfl := Option.some.inj ((if_neg htold).symm.trans hs)
        have hnetwork : (network.connectionMade p.client p.protocol).WellFormed :=
          WellFormed.network h |>.modify (f := fun t => t.call p.protocol .connectionMade) hp.1 rfl id
        refine ⟨hnetwork, h.clients, fun q hq => ?_⟩
        rcases List.mem_cons.mp hq with rfl | hq
        · exact hp
        · exact hrest q hq
  | network ev =>
    obtain ⟨n, hn, rfl⟩ := Option.map_eq_some_iff.mp hs
    have hsane := move_sane (e := ⟨0, false⟩) h hn (False.elim : False → _)
    refine ⟨hsane.wellFormed, h.clients, fun p hp => ?_⟩
    rw [show ({l with network := n} : Lifecycle).network.pairs = n.pairs from rfl, hsane.leads.pairs]
    exact h.made p hp
  | closeLoop =>
    obtain ⟨_, hs⟩ := Option.ite_none_right_eq_some.mp hs
    exact Option.some.inj hs ▸ ⟨h.network.refuse, h.clients, h.made⟩

theorem due_cons (n : SimNetwork) (p : Pairing) (rest : List Pairing) (loopClosed : Bool) (e : EndId) :
    due ⟨n, p :: rest, loopClosed⟩ e =
      if p.client = e ∧ p.told = false then some p.protocol else due ⟨n, rest, loopClosed⟩ e := by
  unfold due
  rw [List.findSome?_cons]
  by_cases hc : p.client = e ∧ p.told = false
  · rw [if_pos hc, if_pos hc]
  · rw [if_neg hc, if_neg hc]

theorem due_eq_none (h : ∀ p ∈ l.pairing, p.client ≠ e) : l.due e = none :=
  List.findSome?_eq_none_iff.mpr fun p hp => if_neg fun hc => h p hp hc.1

/-- An old endpoint goes on; of a new one the `connection_made` has just been called, or is
the next but one. -/
theorem step_lives {ev : Event} (h : l.WellFormed) (hs : l.step ev = some l')
    (hkeep : keep → Retains e l ev) (hmade : e.pair < l'.network.pairs) :
    (e.pair < l.network.pairs ∧
      Transition.Reaches Life.step (fun t a => keep → t.SameProtocol a) (l.life e) (l'.life e)) ∨
    ∃ p, l'.life e = .told p ∨ l'.life e = .untold p := by
  cases ev with
  | connect clientOwner serverOwner client server =>
    obtain ⟨_, hs⟩ := Option.ite_none_right_eq_some.mp hs
    rw [← Option.some.inj hs] at hmade ⊢
    have hlt : e.pair < l.network.pairs + 1 := hmade
    rcases Nat.lt_succ_iff_lt_or_eq.mp hlt with hold | hnew
    · have hne : (⟨l.network.pairs, false⟩ : EndId) ≠ e := fun he => by
        rw [← he] at hold
        exact Nat.lt_irrefl _ hold
      refine .inl ⟨hold, ?_⟩
      unfold life
      rw [due_cons, if_neg fun hc => hne hc.1, SimNetwork.life_pairUp_old _ _ _ _ hold]
      exact .refl _
    · obtain ⟨pair, server'⟩ := e
      obtain rfl : pair = l.network.pairs := hnew
      refine .inr ?_
      cases server' with
      | false =>
        refine ⟨client, .inr ?_⟩
        unfold life
        rw [due_cons, if_pos ⟨rfl, rfl⟩]
        exact SimNetwork.life_pairUp_client h.network _ _ _ _
      | true =>
        refine ⟨server, .inl ?_⟩
        unfold life
        rw [due_eq_none fun p hp hclient => ?_]
        · exact SimNetwork.life_pairUp_server h.network _ _ _ _
        · rcases List.mem_cons.mp hp with rfl | hp
          · cases hclient
          · have hfalse := (h.made p hp).2
            rw [hclient] at hfalse
            cases hfalse
  | made =>
    obtain ⟨network, pairing, loopClosed⟩ := l
    cases pairing with
    | nil => cases hs
    | cons p rest =>
      by_cases htold : p.told = true
      · obtain rfl := Option.some.inj ((if_pos htold).symm.trans hs)
        refine .inl ⟨hmade, ?_⟩
        unfold life
        rw [due_cons, if_neg fun hc => by rw [hc.2] at htold; cases htold]
        exact .refl _
      · obtain rfl := Option.some.inj ((if_neg htold).symm.trans hs)
        refine .inl ⟨hmade, ?_⟩
        have hafter : due ⟨network.connectionMade p.client p.protocol, {p with told := true} :: rest,
            loopClosed⟩ e = due ⟨network, rest, loopClosed⟩ e :=
          (due_cons _ _ _ _ e).trans (if_neg fun hc => nomatch hc.2)
        by_cases he : p.client = e
        · have hbefore : due ⟨network, p :: rest, loopClosed⟩ e = some p.protocol :=
            (due_cons _ _ _ _ e).trans (if_pos ⟨he, Bool.eq_false_iff.mpr htold⟩)
          have hrest : due ⟨network, rest, loopClosed⟩ e = none := due_eq_none fun q hq hclient => by
            refine (List.nodup_cons.mp h.clients).1 (List.mem_map.mpr ⟨q, hq, ?_⟩)
            rw [hclient, he]
          unfold life
          rw [hafter, hbefore, hrest, ← he]
          refine Transition.Reaches.one (e := .tell) (congrArg some ?_) fun _ => nofun
          show {(network.life (some p.protocol) p.client).call p.protocol .made with due := none} = _
          rw [SimNetwork.connectionMade, SimNetwork.life_call]
          rfl
        · have hbefore : due ⟨network, p :: rest, loopClosed⟩ e = due ⟨network, rest, loopClosed⟩ e :=
            (due_cons _ _ _ _ e).trans (if_neg fun hc => he hc.1)
          unfold life
          rw [hafter, hbefore, SimNetwork.connectionMade, SimNetwork.life_modify_ne _ (Ne.symm he)]
          exact .refl _
  | network ev =>
    obtain ⟨n, hn, rfl⟩ := Option.map_eq_some_iff.mp hs
    have hsane := move_sane h hn hkeep
    have hpairs : n.pairs = l.network.pairs := hsane.leads.pairs
    exact .inl ⟨hpairs ▸ hmade, hsane.leads.reaches⟩
  | closeLoop =>
    obtain ⟨_, hs⟩ := Option.ite_none_right_eq_some.mp hs
    rw [← Option.some.inj hs] at hmade ⊢
    exact .inl ⟨hmade, (SimNetwork.refuse_leads l.network).reaches⟩

/-! ### What protocols see -/

/-- Every endpoint that was made leads a sound life. -/
structure Sound (l : Lifecycle) : Prop where
  wellFormed : l.WellFormed
  lives : ∀ e, e.pair < l.network.pairs → (l.life e).Sound

theorem keeps_sound (P : Lifecycle → Event → Prop) : Transition.Keeps step P Sound := by
  intro l ev l' hP h hs
  refine ⟨keeps_wellFormed P l ev l' hP h.wellFormed hs, fun e he => ?_⟩
  rcases step_lives h.wellFormed hs (False.elim : False → _) he with ⟨hold, hreaches⟩ | ⟨p, hnew | hnew⟩
  · exact (Life.keeps_sound _).reaches (h.lives e hold) hreaches
  · rw [hnew]
    exact Life.sound_told p
  · rw [hnew]
    exact Life.sound_untold p

/-- An endpoint whose protocol is never replaced calls no other. -/
theorem keeps_faithful (e : EndId) : Transition.Keeps step (Retains e) fun l =>
    l.WellFormed ∧ (e.pair < l.network.pairs → (l.life e).Faithful) := by
  intro l ev l' hP h hs
  refine ⟨keeps_wellFormed (Retains e) l ev l' hP h.1 hs, fun he => ?_⟩
  rcases step_lives h.1 hs (fun _ : True => hP) he with ⟨hold, hreaches⟩ | ⟨p, hnew | hnew⟩
  · exact (h.2 hold).reaches hreaches
  · rw [hnew]
    exact Life.faithful_told p
  · rw [hnew]
    exact Life.faithful_untold p

/-- What the protocols of an endpoint have seen, and whether it is registered as live. -/
structure Clean (l : Lifecycle) (e : EndId) : Prop where
  untold : ∀ p, l.due e = some p → (l.network.transport e).calls = []
  told : e.pair < l.network.pairs → l.due e = none →
    Role.Orderly ((l.network.transport e).calls.map fun c => c.2.role)
  registered : e ∈ l.network.live ↔
    e.pair < l.network.pairs ∧ (l.network.transport e).closed = false

theorem Sound.clean (h : l.Sound) (e : EndId) : l.Clean e where
  untold := fun p hp => by
    by_cases he : e.pair < l.network.pairs
    · have hsome : (l.life e).due.isSome := by
        rw [show (l.life e).due = l.due e from rfl, hp]
        rfl
      exact List.map_eq_nil_iff.mp ((h.lives e he).untold hsome).1
    · rw [h.wellFormed.network.unmade e (Nat.not_lt.mp he)]
      rfl
  told := fun he hdue => by
    have horderly := (h.lives e he).told hdue
    rw [Life.roles, show (l.life e).calls = _ from rfl] at horderly
    simpa [life, SimNetwork.life, Function.comp_def] using horderly
  registered := by
    constructor
    · intro hlive
      have he := h.wellFormed.network.listed e hlive
      refine ⟨he, ?_⟩
      by_contra hclosed
      have hlisted := (h.lives e he).listed
      rw [show (l.life e).closed = true from Bool.eq_true_of_not_eq_false hclosed] at hlisted
      exact List.count_eq_zero.mp hlisted hlive
    · rintro ⟨he, hopen⟩
      exact h.wellFormed.network.live e he hopen

end Lifecycle

end Simloom
