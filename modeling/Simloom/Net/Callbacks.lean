import Simloom.Net.Lifecycle

/-! Streams refine lives.

Most of what happens in the network changes no life. An end of one endpoint is an act of
its own life; a crash is one of each that the host owned. -/
namespace Simloom
open Theory

/-- The protocol that the pump of an endpoint looked up, and whether it is in a call. -/
def Activity.pumping (e : EndId) : Activity → Option (Protocol × Bool)
  | .idle => none
  | .draining x p | .filling x p _ => if x = e then some (p, false) else none
  | .receiving x p | .ending x p | .buffering x p _ | .updating x p _ =>
    if x = e then some (p, true) else none

/-- A `connection_lost` of an endpoint. -/
def Callback.losing (e : EndId) : Callback → Option Protocol
  | .connectionLost x p _ => if x = e then some p else none
  | _ => none

namespace SimNetwork
variable {n n' : SimNetwork} {e x : EndId} {due : Option Protocol} {keep : Prop}

/-- The life of an endpoint whose `connection_made` on `due` is still to come. -/
def life (n : SimNetwork) (due : Option Protocol) (e : EndId) : Life where
  protocol := (n.transport e).protocol
  due := due
  closed := (n.transport e).closed
  listed := n.live.count e
  losing := n.ready.filterMap (Callback.losing e)
  pumping := n.activity.pumping e
  calls := (n.transport e).calls.map fun c => (c.1, c.2.role)

/-! ### What changes no life -/

/-- No life is changed, and none is new. -/
structure Silent (n n' : SimNetwork) : Prop where
  pairs : n'.pairs = n.pairs
  life : ∀ due e, n'.life due e = n.life due e

theorem Silent.refl (n : SimNetwork) : Silent n n := ⟨rfl, fun _ _ => rfl⟩

theorem Silent.trans {m : SimNetwork} (h : Silent n m) (h' : Silent m n') : Silent n n' :=
  ⟨h'.pairs.trans h.pairs, fun due e => (h'.life due e).trans (h.life due e)⟩

theorem silent_modify (n : SimNetwork) (x : EndId) {f : SimTransport → SimTransport}
    (hprotocol : ∀ t, (f t).protocol = t.protocol) (hclosed : ∀ t, (f t).closed = t.closed)
    (hcalls : ∀ t, (f t).calls = t.calls) : Silent n (n.modify x f) := by
  refine ⟨rfl, fun due e => ?_⟩
  unfold life
  rw [modify_kept _ n x hprotocol, modify_kept _ n x hclosed, modify_kept _ n x hcalls]
  rfl

theorem silent_callSoon (n : SimNetwork) {cb : Callback} (h : ∀ e, cb.losing e = none) :
    Silent n (n.callSoon cb) := by
  refine ⟨rfl, fun due e => ?_⟩
  have hready : (n.ready ++ [cb]).filterMap (Callback.losing e) =
      n.ready.filterMap (Callback.losing e) := by
    simp [h]
  unfold life
  rw [← hready]
  rfl

theorem silent_transmit (n : SimNetwork) (x : EndId) (item : Item) : Silent n (n.transmit x item) := by
  obtain ⟨arrival, drawn, delayed, _, h⟩ := n.transmit_eq x item
  have hpeer : Silent n (n.modify x.peer (awaiting item arrival)) :=
    silent_modify n x.peer (fun _ => rfl) (fun _ => rfl) fun _ => rfl
  rw [h]
  exact ⟨rfl, hpeer.life⟩

theorem silent_send (n : SimNetwork) (x : EndId) (item : Item) : Silent n (n.send x item) := by
  have haccept : Silent n (n.modify x fun t => {t with accepted := t.accepted ++ [item]}) :=
    silent_modify n x (fun _ => rfl) (fun _ => rfl) fun _ => rfl
  unfold send
  dsimp only
  split
  · exact haccept.trans (silent_modify _ x (fun _ => rfl) (fun _ => rfl) fun _ => rfl)
  · exact haccept.trans (silent_transmit _ x item)

theorem silent_write (n : SimNetwork) (x : EndId) (data : List UInt8) : Silent n (n.write x data) := by
  unfold write
  split
  · exact .refl n
  · have hcount : Silent n (n.countSend data.length) := ⟨rfl, fun _ _ => rfl⟩
    exact hcount.trans (silent_send _ x (.data data))

theorem silent_writeEof (n : SimNetwork) (x : EndId) : Silent n (n.writeEof x) := by
  unfold writeEof
  split
  · exact .refl n
  · exact silent_send n x .eof

theorem silent_flush (x : EndId) (items : List Item) (n : SimNetwork) : Silent n (flush x items n) := by
  induction items generalizing n with
  | nil => exact .refl n
  | cons item rest ih =>
    unfold flush
    split
    · exact .refl n
    · have hpop : Silent n (n.modify x fun t => {t with held := rest}) :=
        silent_modify n x (fun _ => rfl) (fun _ => rfl) fun _ => rfl
      exact (hpop.trans (silent_transmit _ x item)).trans (ih _)

theorem silent_release (n : SimNetwork) : Silent n n.release := by
  refine List.foldlRecOn n.live flushHeld (.refl n) fun m hm x _ => hm.trans ?_
  unfold flushHeld
  split
  · exact .refl m
  · exact silent_flush x _ m

theorem silent_schedulePump (n : SimNetwork) (x : EndId) : Silent n (n.schedulePump x) := by
  unfold schedulePump
  split
  · have hmark : Silent n (n.modify x fun t => {t with pumpScheduled := true}) :=
      silent_modify n x (fun _ => rfl) (fun _ => rfl) fun _ => rfl
    exact hmark.trans (silent_callSoon _ fun _ => rfl)
  · exact .refl n

theorem silent_arrive (n : SimNetwork) (x : EndId) : Silent n (n.arrive x) := by
  unfold arrive
  split
  · exact .refl n
  · refine Silent.trans ?_ (silent_schedulePump _ x)
    split
    · exact .refl n
    · exact silent_modify n x (fun _ => rfl) (fun _ => rfl) fun _ => rfl

theorem silent_pauseReading (n : SimNetwork) (x : EndId) : Silent n (n.pauseReading x) :=
  silent_modify n x (fun _ => rfl) (fun _ => rfl) fun _ => rfl

theorem silent_resumeReading (n : SimNetwork) (x : EndId) : Silent n (n.resumeReading x) := by
  have hread : Silent n (n.modify x fun t => {t with paused := false}) :=
    silent_modify n x (fun _ => rfl) (fun _ => rfl) fun _ => rfl
  exact hread.trans (silent_schedulePump _ x)

theorem silent_close (n : SimNetwork) (x : EndId) : Silent n (n.close x) := by
  have hclosing : Silent n (n.modify x fun t => {t with closing := true}) :=
    silent_modify n x (fun _ => rfl) (fun _ => rfl) fun _ => rfl
  unfold close
  split
  · exact .refl n
  · refine (hclosing.trans ?_).trans (silent_callSoon _ fun _ => rfl)
    split
    · exact .refl _
    · exact silent_send _ x .eof

theorem silent_partition (n : SimNetwork) (groupA groupB : List String) :
    Silent n (n.partition groupA groupB) :=
  List.foldlRecOn (groupA.product groupB) _ (.refl n) fun _ hm _ _ =>
    hm.trans ⟨rfl, fun _ _ => rfl⟩

theorem silent_resetConnections (n : SimNetwork) (a b : String) : Silent n (n.resetConnections a b) := by
  refine List.foldlRecOn n.live _ (.refl n) fun m hm x _ => hm.trans ?_
  split
  · exact silent_callSoon m fun _ => rfl
  · exact .refl m

/-! ### Acts -/

/-- A life goes from here to there, and none is new; with `keep` its protocol stays. -/
structure Leads (keep : Prop) (due : Option Protocol) (e : EndId) (n n' : SimNetwork) : Prop where
  pairs : n'.pairs = n.pairs
  reaches : Transition.Reaches Life.step (fun l a => keep → l.SameProtocol a) (n.life due e)
    (n'.life due e)

namespace Leads

theorem stay (hpairs : n'.pairs = n.pairs) (h : n'.life due e = n.life due e) :
    Leads keep due e n n' := by
  refine ⟨hpairs, ?_⟩
  rw [h]
  exact .refl _

theorem silent (h : Silent n n') : Leads keep due e n n' := .stay h.pairs (h.life due e)

theorem act {a : Life.Act} (hpairs : n'.pairs = n.pairs)
    (h : (n.life due e).step a = some (n'.life due e)) (ha : ∀ p, a ≠ .replace p) :
    Leads keep due e n n' :=
  ⟨hpairs, Transition.Reaches.one h fun _ => ha⟩

theorem trans {m : SimNetwork} (h : Leads keep due e n m) (h' : Leads keep due e m n') :
    Leads keep due e n n' := ⟨h'.pairs.trans h.pairs, Transition.Reaches.trans h.reaches h'.reaches⟩

end Leads

/-- Other lives are not changed. -/
theorem life_modify_ne (n : SimNetwork) (h : e ≠ x) (f : SimTransport → SimTransport) :
    (n.modify x f).life due e = n.life due e := by
  unfold life
  rw [modify_of_ne h]
  rfl

theorem modify_leads_ne (n : SimNetwork) (h : e ≠ x) (f : SimTransport → SimTransport) :
    Leads keep due e n (n.modify x f) := .stay rfl (n.life_modify_ne h f)

/-- A callback on an endpoint is one of its life. -/
theorem life_call (n : SimNetwork) (e : EndId) (p : Protocol) (c : Call) :
    (n.modify e fun t => t.call p c).life due e = (n.life due e).call p c.role := by
  simp [life, Life.call, SimTransport.call, modify]

theorem life_kill (n : SimNetwork) (e : EndId) : (n.kill e).life due e = (n.life due e).kill := by
  simp [life, Life.kill, kill, forget, modify]

theorem life_kill_ne (n : SimNetwork) (h : e ≠ x) : (n.kill x).life due e = n.life due e := by
  simp [life, kill, forget, modify, Function.update_of_ne h, List.count_erase_of_ne h]

theorem kill_leads (n : SimNetwork) (x : EndId) : Leads keep due e n (n.kill x) := by
  by_cases he : e = x
  · subst he
    exact .act (a := .kill) rfl (congrArg some (n.life_kill e).symm) nofun
  · exact .stay rfl (n.life_kill_ne he)

theorem forceClose_leads (n : SimNetwork) (x : EndId) (error : Option String) :
    Leads keep due e n (n.forceClose x error) := by
  unfold forceClose
  split
  · exact .silent (.refl n)
  next hopen =>
    by_cases he : e = x
    · subst he
      have hopen' : (n.life due e).closed = false := Bool.eq_false_iff.mpr hopen
      refine .act (a := .force) rfl ((if_pos hopen').trans (congrArg some ?_)) nofun
      rw [← life_kill]
      simp [life, callSoon, kill, forget, modify, Callback.losing]
    · refine (kill_leads n x).trans (.stay rfl ?_)
      simp [life, callSoon, Callback.losing, Ne.symm he]

theorem dropOnCrash_leads (n : SimNetwork) (x : EndId) : Leads keep due e n (n.dropOnCrash x) := by
  unfold dropOnCrash
  dsimp only
  split
  · exact kill_leads n x
  · exact (kill_leads n x).trans (.silent (silent_callSoon _ fun _ => rfl))

theorem crash_leads (n : SimNetwork) (host : String) : Leads keep due e n (n.crash host) := by
  refine List.foldlRecOn n.live _ (.silent (.refl n)) fun m hm x _ => hm.trans ?_
  split
  · exact dropOnCrash_leads m x
  · exact .silent (.refl m)

theorem setProtocol_leads (n : SimNetwork) (x : EndId) (p : Protocol) (h : keep → e ≠ x) :
    Leads keep due e n (n.setProtocol x p) := by
  by_cases he : e = x
  · subst he
    refine ⟨rfl, Transition.Reaches.one (e := .replace p) (congrArg some ?_)
      fun hkeep => absurd rfl (h hkeep)⟩
    simp [life, setProtocol, modify]
  · exact n.modify_leads_ne he _

/-! ### What the loop calls -/

theorem life_idle (hidle : n.activity = .idle) : (n.life due e).pumping = none := by
  simp [life, hidle, Activity.pumping]

/-- An endpoint that is still open when the loop comes to close it. -/
theorem finish_leads (hidle : n.activity = .idle) (hopen : (n.transport x).closed = false)
    (error : Option String) :
    Leads keep none e n ((n.kill x).connectionLost x (n.transport x).protocol error) := by
  by_cases he : e = x
  · subst he
    refine .act (a := .finish) rfl ?_ nofun
    refine (if_pos ⟨rfl, life_idle hidle, hopen⟩).trans (congrArg some ?_)
    show (n.life none e).kill.call (n.transport e).protocol .lost = _
    rw [← life_kill]
    exact (life_call (n.kill e) e _ (.connectionLost error)).symm
  · refine .stay rfl ?_
    unfold connectionLost
    rw [life_modify_ne _ he, life_kill_ne n he]

theorem finalize_leads (hidle : n.activity = .idle) (x : EndId) :
    Leads keep none e n (n.finalize x) := by
  unfold finalize
  split
  · exact .silent (.refl n)
  next hopen =>
    refine (finish_leads hidle (Bool.eq_false_iff.mpr hopen) none).trans (.stay rfl ?_)
    by_cases he : e = x
    · subst he
      simp [life, connectionLost, kill, forget, modify, SimTransport.call]
    · unfold connectionLost
      rw [life_modify_ne _ he, life_modify_ne _ he, life_kill_ne n he]
      simp [life, forget, modify, Function.update_of_ne he, List.count_erase_of_ne he]

theorem resetByPeer_leads (hidle : n.activity = .idle) (x : EndId) :
    Leads keep none e n (n.resetByPeer x) := by
  unfold resetByPeer
  split
  · exact .silent (.refl n)
  next hopen => exact finish_leads hidle (Bool.eq_false_iff.mpr hopen) _

/-- The callbacks in the queue that are no `connection_lost` of an endpoint do not count. -/
theorem losing_erase {cb : Callback} (h : cb.losing e = none) (ready : List Callback) :
    (ready.erase cb).filterMap (Callback.losing e) = ready.filterMap (Callback.losing e) := by
  induction ready with
  | nil => rfl
  | cons a rest ih =>
    by_cases ha : a = cb
    · rw [ha, List.erase_cons_head]
      simp [h]
    · rw [List.erase_cons_tail (by simpa using ha), List.filterMap_cons, List.filterMap_cons, ih]

theorem silent_taken (n : SimNetwork) {cb : Callback} (h : ∀ e, cb.losing e = none) :
    Silent n {n with ready := n.ready.erase cb} := by
  refine ⟨rfl, fun due e => ?_⟩
  unfold life
  rw [losing_erase (h e)]

theorem connectionLost_leads (hidle : n.activity = .idle) {p : Protocol} {error : Option String}
    (hmem : Callback.connectionLost x p error ∈ n.ready) :
    Leads keep none e n
      ({n with ready := n.ready.erase (.connectionLost x p error)}.connectionLost x p error) := by
  have hperm := (List.perm_cons_erase hmem).filterMap (Callback.losing e)
  by_cases he : e = x
  · subst he
    have hlosing : Callback.losing e (.connectionLost e p error) = some p := if_pos rfl
    rw [List.filterMap_cons, hlosing] at hperm
    refine .act (a := .lose p _) rfl ((if_pos ⟨rfl, life_idle hidle, hperm⟩).trans (congrArg some ?_)) nofun
    exact (life_call {n with ready := n.ready.erase (.connectionLost e p error)} e p
      (.connectionLost error)).symm
  · have hlosing : Callback.losing e (.connectionLost x p error) = none := if_neg (Ne.symm he)
    refine .stay rfl ?_
    unfold connectionLost
    rw [life_modify_ne _ he]
    unfold life
    rw [losing_erase hlosing]

/-! ### The pump -/

theorem pumping_elsewhere {a : Activity} (h : a.at ≠ some e) : a.pumping e = none := by
  cases a with
  | idle => rfl
  | draining y p => exact if_neg fun he => h (congrArg some he)
  | receiving y p => exact if_neg fun he => h (congrArg some he)
  | ending y p => exact if_neg fun he => h (congrArg some he)
  | filling y p view => exact if_neg fun he => h (congrArg some he)
  | buffering y p view => exact if_neg fun he => h (congrArg some he)
  | updating y p view => exact if_neg fun he => h (congrArg some he)

theorem move_leads_ne {a : Activity} (hn : n.activity.at ≠ some e) (ha : a.at ≠ some e) :
    Leads keep due e n {n with activity := a} := by
  refine .stay rfl ?_
  unfold life
  rw [show ({n with activity := a} : SimNetwork).activity = a from rfl, pumping_elsewhere ha,
    pumping_elsewhere hn]

/-- The pump stops. -/
theorem rest_leads (n : SimNetwork) : Leads keep due e n {n with activity := .idle} :=
  .act (a := .rest) rfl rfl nofun

theorem pump_leads (hidle : n.activity = .idle) (x : EndId) : Leads keep none e n (n.pump x) := by
  have hmark : Silent n (n.modify x fun t => {t with pumpScheduled := false}) :=
    silent_modify n x (fun _ => rfl) (fun _ => rfl) fun _ => rfl
  refine (Leads.silent hmark).trans ?_
  by_cases he : e = x
  · subst he
    refine .act (a := .pump) rfl ((if_pos ⟨rfl, life_idle hidle⟩).trans (congrArg some ?_)) (by simp)
    simp [life, pump, modify, Activity.pumping]
  · refine move_leads_ne ?_ fun h => he (Option.some.inj h).symm
    simp [modify, hidle, Activity.at]

/-- A call that the pump makes. -/
theorem called_leads (act : Life.Act) {p : Protocol} {c : Call} {a : Activity}
    (hn : n.activity.at = some x) (hc : c.role = .received) (ha : a.at = some x)
    (hengaged : a.pumping x = some (p, true)) (hact : ∀ q, act ≠ .replace q)
    (hstep : (n.life due x).step act =
      some ({n.life due x with pumping := some (p, true)}.call p .received)) :
    Leads keep due e n {n.modify x fun t => t.call p c with activity := a} := by
  by_cases he : e = x
  · subst he
    refine .act rfl (hstep.trans ?_) hact
    show _ = some {(n.modify e fun t => t.call p c).life due e with pumping := a.pumping e}
    rw [hengaged, life_call, hc]
    rfl
  · refine (n.modify_leads_ne he _).trans (move_leads_ne ?_ ?_)
    · show n.activity.at ≠ some e
      rw [hn]
      exact fun h => he (Option.some.inj h).symm
    · rw [ha]
      exact fun h => he (Option.some.inj h).symm

/-- A call of the pump on an open endpoint. -/
theorem engage_leads {p : Protocol} {c : Call} {a : Activity} (hn : n.activity.at = some x)
    (hpumping : n.activity.pumping x = some (p, false)) (hopen : (n.transport x).closed = false)
    (hc : c.role = .received) (ha : a.at = some x) (hengaged : a.pumping x = some (p, true)) :
    Leads keep due e n {n.modify x fun t => t.call p c with activity := a} := by
  have hl : (n.life due x).pumping = some (p, false) := hpumping
  refine called_leads .engage hn hc ha hengaged (by simp) ?_
  simp only [Life.step, hl]
  exact if_pos hopen

/-- The pump goes on in its own code. -/
theorem drain_leads {p : Protocol} {b : Bool} {a : Activity} (hn : n.activity.at = some x)
    (hpumping : n.activity.pumping x = some (p, b)) (ha : a.at = some x)
    (hdrain : a.pumping x = some (p, false)) : Leads keep due e n {n with activity := a} := by
  by_cases he : e = x
  · subst he
    cases b with
    | false =>
      refine .stay rfl ?_
      show {n.life due e with pumping := a.pumping e} = n.life due e
      rw [hdrain, ← hpumping]
      rfl
    | true =>
      have hl : (n.life due e).pumping = some (p, true) := hpumping
      refine .act (a := .returned) rfl ?_ nofun
      show _ = some {n.life due e with pumping := a.pumping e}
      simp only [Life.step, hl, hdrain]
  · refine move_leads_ne ?_ ?_
    · rw [hn]
      exact fun h => he (Option.some.inj h).symm
    · rw [ha]
      exact fun h => he (Option.some.inj h).symm

theorem turn_leads {p : Protocol} (ha : n.activity = .draining x p) :
    Leads keep due e n (n.turn x p) := by
  have hat : n.activity.at = some x := by rw [ha]; rfl
  have hpumping : n.activity.pumping x = some (p, false) := by rw [ha]; exact if_pos rfl
  unfold turn
  split
  · exact rest_leads n
  next item rest _ =>
    split
    next hopen =>
      have hpop : Silent n (n.modify x fun t => {t with inbox := rest, popped := t.popped ++ [item]}) :=
        silent_modify n x (fun _ => rfl) (fun _ => rfl) fun _ => rfl
      have hopen' : ((n.modify x fun t => {t with inbox := rest, popped := t.popped ++ [item]}).transport
          x).closed = false := by
        rw [modify_self]
        exact hopen.2
      refine (Leads.silent hpop).trans ?_
      dsimp only
      split
      · exact engage_leads hat hpumping hopen' rfl rfl (if_pos rfl)
      · exact drain_leads hat hpumping rfl (if_pos rfl)
      · exact engage_leads hat hpumping hopen' rfl rfl (if_pos rfl)
    next => exact rest_leads n

theorem fill_leads {p : Protocol} {view : List UInt8} (ha : n.activity = .filling x p view) :
    Leads keep due e n (n.fill x p view) := by
  have hat : n.activity.at = some x := by rw [ha]; rfl
  have hpumping : n.activity.pumping x = some (p, false) := by rw [ha]; exact if_pos rfl
  unfold fill
  split
  next hopen => exact engage_leads hat hpumping hopen.2 rfl rfl (if_pos rfl)
  next => exact drain_leads hat hpumping rfl (if_pos rfl)

theorem buffer_leads {p : Protocol} {view : List UInt8} (ha : n.activity = .buffering x p view)
    (size : Nat) : Leads keep due e n (n.buffer x p view size) := by
  have hat : n.activity.at = some x := by rw [ha]; rfl
  unfold buffer
  dsimp only
  split
  next =>
    have hl : (n.life due x).pumping = some (p, true) := by
      show n.activity.pumping x = _
      rw [ha]
      exact if_pos rfl
    refine called_leads .update hat rfl rfl (if_pos rfl) (by simp) ?_
    have hsame : {n.life due x with pumping := some (p, true)} = n.life due x := by rw [← hl]
    rw [hsame]
    simp only [Life.step, hl]
  next => exact rest_leads n

theorem eofReturned_leads {p : Protocol} (ha : n.activity = .ending x p) (keepOpen : Bool) :
    Leads keep due e n (n.eofReturned x p keepOpen) := by
  have hactivity : (n.close x).activity = n.activity := by
    unfold close
    split
    · rfl
    · dsimp only
      split
      · rfl
      · exact (send_sends _ x .eof).activity
  have hreturned {m : SimNetwork} (hm : m.activity = n.activity) :
      Leads keep due e m {m with activity := .draining x p} :=
    drain_leads (b := true) (by rw [hm, ha]; rfl) (by rw [hm, ha]; exact if_pos rfl) rfl (if_pos rfl)
  unfold eofReturned
  cases keepOpen with
  | true => exact hreturned rfl
  | false => exact (Leads.silent (silent_close n x)).trans (hreturned hactivity)

theorem returned_leads (hs : n.returned = some n') : Leads keep due e n n' := by
  unfold returned at hs
  split at hs
  next x p ha =>
    exact Option.some.inj hs ▸
      drain_leads (b := true) (by rw [ha]; rfl) (by rw [ha]; exact if_pos rfl) rfl (if_pos rfl)
  next x p view ha =>
    exact Option.some.inj hs ▸
      drain_leads (b := true) (by rw [ha]; rfl) (by rw [ha]; exact if_pos rfl) rfl (if_pos rfl)
  next => cases hs

theorem raised_leads (hs : n.raised = some n') : Leads keep due e n n' := by
  unfold raised at hs
  split at hs
  all_goals first
    | cases hs; done
    | exact Option.some.inj hs ▸ rest_leads n

theorem advance_leads (hs : n.advance = some n') : Leads keep due e n n' := by
  unfold advance at hs
  split at hs
  next x p ha => exact Option.some.inj hs ▸ turn_leads ha
  next x p view ha => exact Option.some.inj hs ▸ fill_leads ha
  next => cases hs

/-! ### Steps -/

/-- The program does not replace the protocol of an endpoint. -/
def Retains (e : EndId) : Event → Prop
  | .setProtocol x _ => e ≠ x
  | _ => True

/-- What the program does may come at any time. -/
theorem program_leads {ev : Event} (hs : n.step ev = some n') (hprogram : ev.ofProgram = true)
    (hconnect : ∀ co so c s, ev ≠ .connect co so c s) (hkeep : keep → Retains e ev) :
    Leads keep due e n n' := by
  cases ev with
  | connect clientOwner serverOwner client server => exact absurd rfl (hconnect _ _ _ _)
  | write x data => exact (callOn_some hs).2.2 ▸ .silent (silent_write n x data)
  | writeEof x => exact (callOn_some hs).2.2 ▸ .silent (silent_writeEof n x)
  | close x => exact (callOn_some hs).2.2 ▸ .silent (silent_close n x)
  | forceClose x error => exact (callOn_some hs).2.2 ▸ forceClose_leads n x error
  | pauseReading x => exact (callOn_some hs).2.2 ▸ .silent (silent_pauseReading n x)
  | resumeReading x => exact (callOn_some hs).2.2 ▸ .silent (silent_resumeReading n x)
  | setProtocol x p => exact (callOn_some hs).2.2 ▸ setProtocol_leads n x p hkeep
  | block src dst => exact (call_some hs).2 ▸ .silent ⟨rfl, fun _ _ => rfl⟩
  | unblock src dst =>
    have hblocked : Silent n {n with blocked := n.blocked.filter (· ≠ (src, dst))} :=
      ⟨rfl, fun _ _ => rfl⟩
    exact (call_some hs).2 ▸ .silent (hblocked.trans (silent_release _))
  | partition groupA groupB => exact (call_some hs).2 ▸ .silent (silent_partition n groupA groupB)
  | heal =>
    have hblocked : Silent n {n with blocked := []} := ⟨rfl, fun _ _ => rfl⟩
    exact (call_some hs).2 ▸ .silent (hblocked.trans (silent_release _))
  | resetConnections a b => exact (call_some hs).2 ▸ .silent (silent_resetConnections n a b)
  | crash host => exact (call_some hs).2 ▸ crash_leads n host
  | shape change => exact (call_some hs).2 ▸ .silent ⟨rfl, fun _ _ => rfl⟩
  | tick | ready | timer | advance | returned | eofReturned | bufferReturned | raised => cases hprogram

theorem taken_leads (n : SimNetwork) (cb : Callback) (h : ∀ e, cb.losing e = none) :
    Leads keep due e n {n with ready := n.ready.erase cb} := .silent (silent_taken n h)

/-- What the loop and the pump do comes only where no `connection_made` is due. -/
theorem loop_leads {ev : Event} (h : n.WellFormed) (hs : n.step ev = some n')
    (hprogram : ev.ofProgram = false) : Leads keep none e n n' := by
  cases ev with
  | tick t =>
    obtain ⟨_, hs⟩ := Option.ite_none_right_eq_some.mp hs
    exact Option.some.inj hs ▸ .silent ⟨rfl, fun _ _ => rfl⟩
  | ready cb =>
    obtain ⟨⟨hidle, hmem⟩, hs⟩ := Option.ite_none_right_eq_some.mp hs
    rw [← Option.some.inj hs]
    cases cb with
    | arrive x => exact absurd rfl (h.ready _ hmem).2
    | pump x =>
      exact (taken_leads n (.pump x) fun _ => rfl).trans
        (pump_leads (n := {n with ready := n.ready.erase (.pump x)}) hidle x)
    | finalize x =>
      exact (taken_leads n (.finalize x) fun _ => rfl).trans
        (finalize_leads (n := {n with ready := n.ready.erase (.finalize x)}) hidle x)
    | resetByPeer x =>
      exact (taken_leads n (.resetByPeer x) fun _ => rfl).trans
        (resetByPeer_leads (n := {n with ready := n.ready.erase (.resetByPeer x)}) hidle x)
    | connectionLost x p error => exact connectionLost_leads hidle hmem
  | timer t cb =>
    obtain ⟨⟨_, hmem, _⟩, hs⟩ := Option.ite_none_right_eq_some.mp hs
    obtain ⟨x, rfl, _⟩ := h.timers _ hmem
    have htaken : Silent n {n with timers := n.timers.erase (t, .arrive x)} := ⟨rfl, fun _ _ => rfl⟩
    exact Option.some.inj hs ▸ .silent (htaken.trans (silent_arrive _ x))
  | advance => exact advance_leads hs
  | returned => exact returned_leads hs
  | eofReturned keepOpen =>
    simp only [step] at hs
    split at hs
    next x p ha => exact Option.some.inj hs ▸ eofReturned_leads ha keepOpen
    next => cases hs
  | bufferReturned size =>
    simp only [step] at hs
    split at hs
    next x p view ha => exact Option.some.inj hs ▸ buffer_leads ha size
    next => cases hs
  | raised => exact raised_leads hs
  | connect | write | writeEof | close | forceClose | pauseReading | resumeReading | setProtocol | block
  | unblock | partition | heal | resetConnections | crash | shape => cases hprogram

end SimNetwork

end Simloom
