import Simloom.Net.Datagram
import Simloom.Net.Endings

/-! How datagram endpoints end, and what both kinds of transport have in common.

A datagram endpoint is told as it is made and has no pump: its life is that of a stream
endpoint with fewer acts. -/
namespace Simloom
open Theory

def DatagramCall.role : DatagramCall → Role
  | .connectionMade => .made
  | .datagramReceived _ _ => .received
  | .connectionLost => .lost

namespace DatagramNetwork
variable {n n' : DatagramNetwork} {e x : EndpointId} {keep : Prop}

/-! ### After the loop is closed -/

/-- What schedules nothing can still be done. -/
def stepDead (n : DatagramNetwork) : Event → Option DatagramNetwork
  | .close e => n.step (.close e)
  | .sendto _ _ _ _ | .tick _ | .finalize _ | .deliver _ _ | .closeLoop => none
  | ev => (step {n with loopClosed := false} ev).map fun n => {n with loopClosed := true}

def stepAnytime (n : DatagramNetwork) (ev : Event) : Option DatagramNetwork :=
  if n.loopClosed then n.stepDead ev else n.step ev

/-! ### Lives -/

/-- Who is bound, by address. -/
def enrolled (n : DatagramNetwork) : List EndpointId := n.bound.entries.map Prod.snd

def life (n : DatagramNetwork) (e : EndpointId) : Life where
  protocol := (n.endpoint e).protocol
  due := none
  closed := (n.endpoint e).closed
  listed := n.enrolled.count e
  losing := []
  pumping := none
  calls := (n.endpoint e).calls.map fun c => (c.1, c.2.role)

/-- A life goes from here to there, and nobody new is bound. -/
structure Leads (keep : Prop) (e : EndpointId) (n n' : DatagramNetwork) : Prop where
  made : n'.made = n.made
  enrolled : ∀ x ∈ n'.enrolled, x ∈ n.enrolled
  reaches : Transition.Reaches Life.step (fun l a => keep → l.SameProtocol a) (n.life e) (n'.life e)

namespace Leads

/-- Nothing that a life depends on is changed. -/
theorem stay (hendpoint : n'.endpoint = n.endpoint) (hmade : n'.made = n.made)
    (hbound : n'.bound = n.bound) : Leads keep e n n' := by
  refine ⟨hmade, ?_, ?_⟩
  · rw [DatagramNetwork.enrolled, DatagramNetwork.enrolled, hbound]
    exact fun _ hx => hx
  · have hlife : n'.life e = n.life e := by
      unfold life DatagramNetwork.enrolled
      rw [hendpoint, hbound]
    rw [hlife]
    exact .refl _

theorem trans {m : DatagramNetwork} (h : Leads keep e n m) (h' : Leads keep e m n') :
    Leads keep e n n' where
  made := h'.made.trans h.made
  enrolled := fun x hx => h.enrolled x (h'.enrolled x hx)
  reaches := h.reaches.trans h'.reaches

end Leads

theorem life_modify_ne (n : DatagramNetwork) (h : e ≠ x)
    (f : SimDatagramTransport → SimDatagramTransport) : (n.modify x f).life e = n.life e := by
  simp [life, modify, enrolled, h]

theorem life_call (n : DatagramNetwork) (e : EndpointId) (c : DatagramCall) :
    (n.modify e fun t => t.call c).life e =
      (n.life e).call (n.endpoint e).protocol c.role := by
  simp [life, modify, enrolled, SimDatagramTransport.call, Life.call]

/-! ### The registry -/

theorem forget_endpoint (n : DatagramNetwork) (x : EndpointId) :
    (n.forget x).endpoint = n.endpoint ∧ (n.forget x).made = n.made := by
  unfold forget
  split
  · exact ⟨rfl, rfl⟩
  · exact ⟨rfl, rfl⟩

theorem mem_enrolled_forget (n : DatagramNetwork) (x : EndpointId) {y : EndpointId}
    (h : y ∈ (n.forget x).enrolled) : y ∈ n.enrolled := by
  unfold forget at h
  split at h
  next entry _ =>
    obtain ⟨kept, hkept, hy⟩ := List.mem_map.mp h
    exact List.mem_map.mpr ⟨kept, (List.mem_filter.mp hkept).1, hy⟩
  next => exact h

/-- An endpoint that is forgotten is bound once less, the others as before. -/
theorem count_enrolled_forget (n : DatagramNetwork) (x e : EndpointId) :
    (n.forget x).enrolled.count e =
      if e = x then n.enrolled.count x - 1 else n.enrolled.count e := by
  unfold forget
  split
  next entry hfind =>
    have hx : entry.2 = x := by simpa using List.find?_some hfind
    have hbound : n.bound.get? entry.1 = some entry.2 :=
      Dict.mem_entries.mp (List.mem_of_find?_eq_some hfind)
    have hcount : n.enrolled.count e = (entry.2 :: (n.bound.pop entry.1).entries.map Prod.snd).count e :=
      ((Dict.perm_pop hbound).map Prod.snd).count_eq e
    rw [hx] at hcount
    show ((n.bound.pop entry.1).entries.map Prod.snd).count e = _
    by_cases he : e = x
    · rw [if_pos he, ← he, hcount, he, List.count_cons_self]
      rfl
    · rw [if_neg he, hcount, List.count_cons_of_ne (Ne.symm he)]
  next hfind =>
    split
    next he =>
      have hnone : x ∉ n.enrolled := fun hmem => by
        obtain ⟨entry, hentry, hx⟩ := List.mem_map.mp hmem
        exact List.find?_eq_none.mp hfind entry hentry (by simpa using hx)
      rw [he, List.count_eq_zero.mpr hnone]
    next => rfl

theorem life_forget_self (n : DatagramNetwork) (e : EndpointId) :
    (n.forget e).life e = {n.life e with listed := (n.life e).listed - 1} := by
  unfold life
  rw [(n.forget_endpoint e).1, count_enrolled_forget, if_pos rfl]

theorem life_forget_ne (n : DatagramNetwork) (h : e ≠ x) : (n.forget x).life e = n.life e := by
  unfold life
  rw [(n.forget_endpoint x).1, count_enrolled_forget, if_neg h]

theorem life_kill (n : DatagramNetwork) (e : EndpointId) : (n.kill e).life e = (n.life e).kill := by
  rw [kill, life_forget_self]
  simp [life, modify, enrolled, Life.kill]

theorem life_kill_ne (n : DatagramNetwork) (h : e ≠ x) : (n.kill x).life e = n.life e := by
  rw [kill, life_forget_ne _ h, life_modify_ne _ h]

theorem kill_leads (n : DatagramNetwork) (x : EndpointId) : Leads keep e n (n.kill x) := by
  refine ⟨(forget_endpoint _ x).2, fun y hy =>
    mem_enrolled_forget (n.modify x fun t => {t with closing := true, closed := true}) x hy, ?_⟩
  by_cases he : e = x
  · subst he
    exact Transition.Reaches.one (e := .kill) (congrArg some (n.life_kill e).symm) fun _ => nofun
  · rw [n.life_kill_ne he]
    exact .refl _

theorem crash_leads (n : DatagramNetwork) (host : String) : Leads keep e n (n.crash host) := by
  refine List.foldlRecOn _ _ (.stay rfl rfl rfl) fun m hm x _ => hm.trans ?_
  split
  · exact kill_leads m x
  · exact .stay rfl rfl rfl

theorem finalize_leads (n : DatagramNetwork) (x : EndpointId) : Leads keep e n (n.finalize x) := by
  unfold finalize
  split
  · exact .stay rfl rfl rfl
  next hopen =>
    refine ⟨(forget_endpoint _ x).2, fun y hy =>
      mem_enrolled_forget (n.modify x fun t => {t with closed := true}) x hy, ?_⟩
    by_cases he : e = x
    · subst he
      have hopen' : (n.life e).closed = false := Bool.eq_false_iff.mpr hopen
      refine Transition.Reaches.one (e := .finish)
        ((if_pos ⟨rfl, rfl, hopen'⟩).trans (congrArg some ?_)) fun _ => nofun
      rw [life_call, life_forget_self, (forget_endpoint _ e).1]
      simp [life, modify, enrolled, Life.kill, DatagramCall.role]
    · rw [life_modify_ne _ he, life_forget_ne _ he, life_modify_ne _ he]
      exact .refl _

theorem close_leads (n : DatagramNetwork) (x : EndpointId) : Leads keep e n (n.close x) := by
  unfold close
  split
  · exact .stay rfl rfl rfl
  · split
    · exact kill_leads n x
    · refine ⟨rfl, fun _ hy => hy, ?_⟩
      have hlife : life {n.modify x fun t => {t with closing := true} with ready := n.ready ++ [x]} e =
          n.life e := by
        by_cases he : e = x <;> simp [life, modify, enrolled, he]
      rw [hlife]
      exact .refl _

/-- A delivery is a pump that hands over one datagram. -/
theorem deliver_leads (n : DatagramNetwork) (g : Datagram) : Leads keep e n (n.deliver g) := by
  unfold deliver
  split
  · exact .stay rfl rfl rfl
  next hopen =>
    refine ⟨rfl, fun _ hy => hy, ?_⟩
    by_cases he : e = g.dest
    · subst he
      have hopen' : (n.life g.dest).closed = false := Bool.eq_false_iff.mpr hopen
      have hengage : Life.step {n.life g.dest with pumping := some ((n.life g.dest).protocol, false)}
          .engage = some ({n.life g.dest with pumping := some ((n.life g.dest).protocol, true)}.call
            (n.life g.dest).protocol .received) := if_pos hopen'
      have hpump : (n.life g.dest).step .pump =
          some {n.life g.dest with pumping := some ((n.life g.dest).protocol, false)} := by
        simp [Life.step, life]
      have hsame (l : Life) {a : Life.Act} (ha : ∀ p, a ≠ .replace p) : keep → l.SameProtocol a :=
        fun _ => ha
      refine ((Transition.Reaches.one hpump (hsame _ (by simp))).trans
        (.one hengage (hsame _ (by simp)))).trans
        (.one (e := .rest) (congrArg some ?_) (hsame _ (by simp)))
      simp [life, modify, enrolled, SimDatagramTransport.call, Life.call, DatagramCall.role]
    · rw [life_modify_ne _ he]
      exact .refl _

/-! ### Sending -/

theorem launch_keeps (g : Datagram) (src dst : String) (copies : List (Fin 64 × Fin 100)) (last : ℚ)
    (n : DatagramNetwork) : (launch g src dst copies last n).1.endpoint = n.endpoint ∧
      (launch g src dst copies last n).1.made = n.made ∧
      (launch g src dst copies last n).1.bound = n.bound := by
  induction copies generalizing last n with
  | nil => exact ⟨rfl, rfl, rfl⟩
  | cons c rest ih =>
    unfold launch
    dsimp only
    split
    · exact ih _ _
    · exact ih _ _

theorem carry_leads (n : DatagramNetwork) (g : Datagram) (dst : Addr) (draws : DatagramDraws) :
    Leads keep e n (n.carry g dst draws) := by
  unfold carry
  split
  · exact .stay rfl rfl rfl
  · dsimp only
    split
    · obtain ⟨hendpoint, hmade, hbound⟩ := launch_keeps g _ _ [draws.first, draws.second] _
        (n.count fun c => {c with duplicated := c.duplicated + 1})
      exact .stay hendpoint hmade hbound
    · obtain ⟨hendpoint, hmade, hbound⟩ := launch_keeps g _ _ [draws.first] _ n
      exact .stay hendpoint hmade hbound

theorem sendto_leads (n : DatagramNetwork) (x : EndpointId) (data : List UInt8) (addr : Option Addr)
    (draws : DatagramDraws) : Leads keep e n (n.sendto x data addr draws) := by
  unfold sendto
  split
  · exact .stay rfl rfl rfl
  · split
    · exact .stay rfl rfl rfl
    next dst _ =>
      unfold routeDatagram
      dsimp only
      split
      · exact .stay rfl rfl rfl
      · split
        · exact .stay rfl rfl rfl
        next dest _ _ =>
          let counted := n.count fun c =>
            {c with bytesSent := c.bytesSent + data.length, chunksSent := c.chunksSent + 1}
          let g : Datagram := ⟨n.offered.length, x, (n.endpoint x).localAddr, dest, data⟩
          have hoffer : Leads keep e n {counted with offered := counted.offered ++ [g]} :=
            .stay rfl rfl rfl
          exact hoffer.trans (carry_leads _ g dst draws)

/-! ### Steps -/

/-- The program does not replace the protocol of an endpoint. -/
def Retains (e : EndpointId) (_ : DatagramNetwork) : Event → Prop
  | .setProtocol x _ => e ≠ x
  | _ => True

theorem setProtocol_leads (n : DatagramNetwork) (x : EndpointId) (p : Protocol) (h : keep → e ≠ x) :
    Leads keep e n (n.setProtocol x p) := by
  refine ⟨rfl, fun _ hy => hy, ?_⟩
  by_cases he : e = x
  · subst he
    refine Transition.Reaches.one (e := .replace p) (congrArg some ?_) fun hkeep => absurd rfl (h hkeep)
    simp [life, setProtocol, modify, enrolled]
  · rw [setProtocol, life_modify_ne _ he]
    exact .refl _

/-- Who is bound was made. -/
def Enrolled (n : DatagramNetwork) : Prop := ∀ x ∈ n.enrolled, x < n.made

/-- An old endpoint goes on; a new one has just been told. -/
def Goes (keep : Prop) (e : EndpointId) (n n' : DatagramNetwork) : Prop :=
  (n.Enrolled → n'.Enrolled) ∧ (n.Enrolled → e < n'.made →
    (e < n.made ∧ Transition.Reaches Life.step (fun l a => keep → l.SameProtocol a) (n.life e) (n'.life e)) ∨
    ∃ p, n'.life e = .told p)

theorem Leads.goes (h : Leads keep e n n') : Goes keep e n n' :=
  ⟨fun henrolled x hx => h.made ▸ henrolled x (h.enrolled x hx),
    fun _ he => .inl ⟨h.made ▸ he, h.reaches⟩⟩

theorem createEndpoint_goes (n : DatagramNetwork) (localAddr : Addr) (remoteAddr : Option Addr)
    (owner : String) (protocol : Protocol) :
    Goes keep e n (n.createEndpoint localAddr remoteAddr owner protocol) := by
  unfold createEndpoint
  split
  · exact (Leads.stay rfl rfl rfl).goes
  next hfree =>
    let t := SimDatagramTransport.new localAddr remoteAddr owner protocol
    have hfresh : localAddr ∉ n.bound.entries.map Prod.fst := fun hmem =>
      hfree (Dict.mem_keys.mp hmem)
    have hentered : (n.enter localAddr t).enrolled = n.enrolled ++ [n.made] := by
      show (Dict.put localAddr n.made n.bound.entries).map Prod.snd = _
      rw [Dict.put_of_not_mem _ hfresh, List.map_append]
      rfl
    refine ⟨fun henrolled x hx => ?_, fun henrolled he => ?_⟩
    · have hx' : x ∈ (n.enter localAddr t).enrolled := hx
      rw [hentered] at hx'
      rcases List.mem_append.mp hx' with hold | hnew
      · exact Nat.lt_succ_of_lt (henrolled x hold)
      · exact Nat.lt_succ_of_le (List.mem_singleton.mp hnew).le
    · have hlt : e < n.made + 1 := he
      rcases Nat.lt_succ_iff_lt_or_eq.mp hlt with hold | hnew
      · refine .inl ⟨hold, ?_⟩
        have hne : e ≠ n.made := Nat.ne_of_lt hold
        have hlife : (n.enter localAddr t).life e = n.life e := by
          unfold life
          rw [hentered, List.count_append]
          simp [enter, hne, Ne.symm hne]
        rw [life_modify_ne _ hne, hlife]
        exact .refl _
      · subst hnew
        refine .inr ⟨protocol, ?_⟩
        have hcount : n.enrolled.count n.made = 0 :=
          List.count_eq_zero.mpr fun hmem => Nat.lt_irrefl _ (henrolled _ hmem)
        rw [life_call]
        unfold life
        rw [hentered, List.count_append, hcount]
        simp [enter, SimDatagramTransport.new, Life.call, Life.told, DatagramCall.role]

theorem step_goes {ev : Event} (hs : n.step ev = some n') (hkeep : keep → Retains e n ev) :
    Goes keep e n n' := by
  cases ev with
  | create localAddr remoteAddr owner protocol =>
    exact eq_of_live hs ▸ createEndpoint_goes n localAddr remoteAddr owner protocol
  | sendto x data addr draws => exact (eq_of_liveOn hs).2 ▸ (sendto_leads n x data addr draws).goes
  | close x =>
    obtain ⟨_, hs⟩ := Option.ite_none_right_eq_some.mp hs
    exact Option.some.inj hs ▸ (close_leads n x).goes
  | setProtocol x p => exact (eq_of_liveOn hs).2 ▸ (setProtocol_leads n x p hkeep).goes
  | crash host => exact eq_of_live hs ▸ (crash_leads n host).goes
  | relink blocked => exact eq_of_live hs ▸ (Leads.stay rfl rfl rfl).goes
  | shape change => exact eq_of_live hs ▸ (Leads.stay rfl rfl rfl).goes
  | fault change => exact eq_of_live hs ▸ (Leads.stay rfl rfl rfl).goes
  | tick t =>
    obtain ⟨_, hs⟩ := Option.ite_none_right_eq_some.mp hs
    exact eq_of_live hs ▸ (Leads.stay rfl rfl rfl).goes
  | finalize x =>
    obtain ⟨_, hs⟩ := Option.ite_none_right_eq_some.mp hs
    have htaken : Leads keep e n {n with ready := n.ready.erase x} := .stay rfl rfl rfl
    exact eq_of_live hs ▸ (htaken.trans (finalize_leads _ x)).goes
  | deliver t g =>
    obtain ⟨_, hs⟩ := Option.ite_none_right_eq_some.mp hs
    have htaken : Leads keep e n {n with timers := n.timers.erase (t, g)} := .stay rfl rfl rfl
    exact eq_of_live hs ▸ (htaken.trans (deliver_leads _ g)).goes
  | closeLoop => exact eq_of_live hs ▸ (Leads.stay rfl rfl rfl).goes

theorem stepAnytime_goes {ev : Event} (hs : n.stepAnytime ev = some n') (hkeep : keep → Retains e n ev) :
    Goes keep e n n' := by
  -- with the loop open or closed the lives are the same
  have hopened (hs : (step {n with loopClosed := false} ev).map
      (fun m => {m with loopClosed := true}) = some n') : Goes keep e n n' := by
    obtain ⟨m, hm, rfl⟩ := Option.map_eq_some_iff.mp hs
    have hgoes : Goes keep e {n with loopClosed := false} m := step_goes hm hkeep
    exact hgoes
  unfold stepAnytime at hs
  split at hs
  · cases ev with
    | close x =>
      have hclose : n.step (.close x) = some n' := hs
      exact step_goes hclose hkeep
    | create | setProtocol | crash | relink | shape | fault => exact hopened hs
    | sendto | tick | finalize | deliver | closeLoop => cases hs
  · exact step_goes hs hkeep

/-! ### What protocols see -/

/-- Every endpoint that was made leads a sound life. -/
structure Sound (n : DatagramNetwork) : Prop where
  enrolled : n.Enrolled
  lives : ∀ e, e < n.made → (n.life e).Sound

theorem sound_start (rounding : Rounding) : (start rounding).Sound :=
  ⟨fun _ hx => absurd hx List.not_mem_nil, fun _ he => absurd he (Nat.not_lt_zero _)⟩

theorem keeps_sound (P : DatagramNetwork → Event → Prop) : Transition.Keeps stepAnytime P Sound := by
  intro n ev n' _ h hs
  have hgoes (e : EndpointId) : Goes False e n n' := stepAnytime_goes hs False.elim
  refine ⟨(hgoes 0).1 h.enrolled, fun e he => ?_⟩
  rcases (hgoes e).2 h.enrolled he with ⟨hold, hreaches⟩ | ⟨p, hnew⟩
  · exact (Life.keeps_sound _).reaches (h.lives e hold) hreaches
  · rw [hnew]
    exact Life.sound_told p

/-- An endpoint whose protocol is never replaced calls no other. -/
theorem keeps_faithful (e : EndpointId) : Transition.Keeps stepAnytime (Retains e) fun n =>
    n.Enrolled ∧ (e < n.made → (n.life e).Faithful) := by
  intro n ev n' hP h hs
  have hgoes : Goes True e n n' := stepAnytime_goes hs fun _ => hP
  refine ⟨hgoes.1 h.1, fun he => ?_⟩
  rcases hgoes.2 h.1 he with ⟨hold, hreaches⟩ | ⟨p, hnew⟩
  · exact (h.2 hold).reaches hreaches
  · rw [hnew]
    exact Life.faithful_told p

/-- What the protocols of an endpoint have seen, and whether it is bound. -/
structure Clean (n : DatagramNetwork) (e : EndpointId) : Prop where
  told : e < n.made → Role.Orderly ((n.endpoint e).calls.map fun c => c.2.role)
  registered : (∃ a, n.bound.get? a = some e) ↔ e < n.made ∧ (n.endpoint e).closed = false

theorem mem_enrolled : e ∈ n.enrolled ↔ ∃ a, n.bound.get? a = some e := by
  simp only [enrolled, List.mem_map, Prod.exists, Dict.mem_entries, exists_eq_right]

theorem Sound.clean (h : n.Sound) (e : EndpointId) : n.Clean e where
  told := fun he => by
    have horderly := (h.lives e he).told rfl
    simpa [Life.roles, life, Function.comp_def] using horderly
  registered := by
    rw [← mem_enrolled]
    constructor
    · intro hmem
      have he := h.enrolled e hmem
      refine ⟨he, ?_⟩
      by_contra hclosed
      have hlisted := (h.lives e he).listed
      rw [show (n.life e).closed = true from Bool.eq_true_of_not_eq_false hclosed] at hlisted
      exact List.count_eq_zero.mp hlisted hmem
    · rintro ⟨he, hopen⟩
      have hlisted := (h.lives e he).listed
      rw [show (n.life e).closed = false from hopen] at hlisted
      exact List.count_pos_iff.mp (by rw [show n.enrolled.count e = 1 from hlisted]; exact Nat.one_pos)

end DatagramNetwork

/-! ### Both kinds -/

/-- **Transport callbacks end cleanly.** In every run each protocol sees `connection_made`
first and once, `connection_lost` at most once and last; and a transport is registered
exactly while it is started and not closed. -/
theorem callbacks_end_cleanly :
    (∀ draws events l, Transition.run Lifecycle.step (Lifecycle.start draws) events = some l → ∀ e,
      l.Clean e ∧ (e.pair < l.network.pairs →
        Transition.Along Lifecycle.step (Lifecycle.Retains e) (Lifecycle.start draws) events →
          ∀ c ∈ (l.network.transport e).calls, c.1 = (l.network.transport e).protocol)) ∧
    ∀ rounding events n,
      Transition.run DatagramNetwork.stepAnytime (DatagramNetwork.start rounding) events = some n → ∀ e,
      n.Clean e ∧ (e < n.made →
        Transition.Along DatagramNetwork.stepAnytime (DatagramNetwork.Retains e)
            (DatagramNetwork.start rounding) events →
          ∀ c ∈ (n.endpoint e).calls, c.1 = (n.endpoint e).protocol) := by
  refine ⟨fun draws events l hrun e => ⟨?_, fun he hretains c hc => ?_⟩,
    fun rounding events n hrun e => ⟨?_, fun he hretains c hc => ?_⟩⟩
  · exact ((Lifecycle.keeps_sound fun _ _ => True).run
      (Transition.along_of_forall (fun _ _ _ => trivial) _)
      ⟨Lifecycle.wellFormed_start draws, fun _ he => absurd he (Nat.not_lt_zero _)⟩ hrun).clean e
  · obtain ⟨_, hfaithful⟩ := (Lifecycle.keeps_faithful e).run hretains
      ⟨Lifecycle.wellFormed_start draws, fun he => absurd he (Nat.not_lt_zero _)⟩ hrun
    exact (hfaithful he).calls (c.1, c.2.role) (List.mem_map.mpr ⟨c, hc, rfl⟩)
  · exact ((DatagramNetwork.keeps_sound fun _ _ => True).run
      (Transition.along_of_forall (fun _ _ _ => trivial) _) (DatagramNetwork.sound_start rounding)
      hrun).clean e
  · obtain ⟨_, hfaithful⟩ := (DatagramNetwork.keeps_faithful e).run hretains
      ⟨(DatagramNetwork.sound_start rounding).enrolled, fun he => absurd he (Nat.not_lt_zero _)⟩ hrun
    exact (hfaithful he).calls (c.1, c.2.role) (List.mem_map.mpr ⟨c, hc, rfl⟩)

/-- The server closes its connection in its own `connection_made`; both are aborted before
anything arrives, and the loop is closed with a second connection open, which a destructor
then closes. -/
def endings : List Lifecycle.Event :=
  [.connect "a" "b" ⟨1, false⟩ ⟨2, false⟩, .network (.close ⟨0, true⟩), .made, .made,
    .network (.forceClose ⟨0, false⟩ none), .network (.ready (.finalize ⟨0, true⟩)),
    .network (.ready (.connectionLost ⟨0, false⟩ ⟨1, false⟩ none)),
    .connect "a" "b" ⟨3, false⟩ ⟨4, false⟩, .made, .made, .closeLoop, .network (.close ⟨1, false⟩)]

theorem callbacks_end_cleanly_endings : ∃ l,
    Transition.run Lifecycle.step (Lifecycle.start fun _ => (0, 0)) endings = some l ∧
      l.Clean ⟨0, false⟩ ∧ l.Clean ⟨1, false⟩ ∧
      (∀ c ∈ (l.network.transport ⟨0, false⟩).calls, c.1 = ⟨1, false⟩) ∧
      (l.network.transport ⟨0, false⟩).calls.map Prod.snd = [.connectionMade, .connectionLost none] ∧
      l.network.live = [⟨1, true⟩] := by
  obtain ⟨l, hl, hend⟩ := (Option.any_eq_true _ _).mp (by decide +kernel :
    (Transition.run Lifecycle.step (Lifecycle.start fun _ => (0, 0)) endings).any fun l =>
      decide (0 < l.network.pairs ∧ (l.network.transport ⟨0, false⟩).protocol = ⟨1, false⟩ ∧
        (l.network.transport ⟨0, false⟩).calls.map Prod.snd = [.connectionMade, .connectionLost none] ∧
        l.network.live = [⟨1, true⟩]))
  obtain ⟨hmade, hprotocol, hcalls, hlive⟩ := of_decide_eq_true hend
  have hclean := callbacks_end_cleanly.1 _ _ l hl
  refine ⟨l, hl, (hclean ⟨0, false⟩).1, (hclean ⟨1, false⟩).1, ?_, hcalls, hlive⟩
  rw [← hprotocol]
  refine (hclean ⟨0, false⟩).2 hmade (Transition.along_of_forall (fun ev hev n => ?_) _)
  unfold endings at hev
  simp only [List.mem_cons, List.not_mem_nil, or_false] at hev
  rcases hev with rfl | rfl | rfl | rfl | rfl | rfl | rfl | rfl | rfl | rfl | rfl | rfl <;> trivial

end Simloom
