import Simloom.World.Crash

/-! A host that is powered off.

A crash leaves its host nothing that can act (`crash_acts`), and no step gives anything to an
owner that is powered off, but for five that do not look (`spares`): a pairing that was stashed
or has its factories still to call, a client's `connection_made`, a spawn whose factory crashed
the host, a task that was picked before a garbage collection crashed it, and the
`connection_lost` of a forced close. -/
namespace Simloom
open Theory
namespace World
variable {w w' : World} {host : HostId} {owner o : Owner}

/-- A host that is powered off has nothing that can act. -/
def Dark (w : World) : Prop := ∀ host, (w.hosts host).crashed = true → ¬ w.Acts (some host)

def Frame.runsOn (host : HostId) : Frame → Bool
  | .code owner _ => owner == some host
  | _ => false

/-- Crashes are made by code that does not run on the host. -/
def isOutside (w : World) : Event → Bool
  | .act (.crash host) => w.stack.all fun frame => !frame.runsOn host
  | _ => true

/-- The steps that do not look whether an owner is powered off, where none is. -/
def spares (w : World) : Event → Bool
  | .paired =>
    match w.stack with
    | .pairing id client :: _ => !w.isOff (w.ownerOf id) && !w.isOff client
    | _ => true
  | .greet =>
    match w.stack with
    | .greeting id :: _ => (w.transports[id]?).all fun t => !w.isOff t.owner
    | _ => true
  | .spawned =>
    match w.stack with
    | .spawning host _ :: _ => !(w.hosts host).crashed
    | _ => true
  | .run => w.hand.all fun id => (w.tasks[id]?).all fun t => !w.isOff t.host
  | .callback (.lost id) => (w.transports[id]?).all fun t => !w.isOff t.owner
  | _ => true

/-! ### What steps give -/

/-- No host is powered off, and what can act could, or acts for an owner that is powered on. -/
structure Grows (w w' : World) : Prop where
  off : ∀ host, (w'.hosts host).crashed = true → (w.hosts host).crashed = true
  tasks : ∀ id t, w'.tasks[id]? = some t → t.done = false → id ∉ w'.crashed →
    w.Acts t.host ∨ w'.isOff t.host = false
  listeners : ∀ s ∈ w'.servers, s.listed = true → w.Acts s.owner ∨ w'.isOff s.owner = false
  transports : ∀ t ∈ w'.transports, t.closed = false → w.Acts t.owner ∨ w'.isOff t.owner = false
  endpoints : ∀ d ∈ w'.datagrams, d.closed = false → w.Acts d.owner ∨ w'.isOff d.owner = false
  code : ∀ owner task, .code owner task ∈ w'.stack → w.Acts owner ∨ w'.isOff owner = false

theorem Grows.refl (w : World) : Grows w w where
  off _ h := h
  tasks _ _ ht hdone hnot := .inl (.task ht hdone hnot)
  listeners _ hs hlisted := .inl (.listener hs hlisted)
  transports _ ht hclosed := .inl (.transport ht hclosed)
  endpoints _ hd hclosed := .inl (.endpoint hd hclosed)
  code _ _ h := .inl (.code h)

theorem Grows.acts (h : Grows w w') (ha : w'.Acts o) : w.Acts o ∨ w'.isOff o = false := by
  cases ha with
  | task ht hdone hnot => exact h.tasks _ _ ht hdone hnot
  | listener hs hlisted => exact h.listeners _ hs hlisted
  | transport ht hclosed => exact h.transports _ ht hclosed
  | endpoint hd hclosed => exact h.endpoints _ hd hclosed
  | code hcode => exact h.code _ _ hcode

theorem Grows.isOn (h : Grows w w') (hon : w.isOff o = false) : w'.isOff o = false := by
  cases o with
  | none => rfl
  | some host =>
    refine Bool.eq_false_iff.mpr fun hoff => ?_
    exact Bool.eq_false_iff.mp hon (h.off host hoff)

theorem Grows.trans {v : World} (h : Grows w v) (h' : Grows v w') : Grows w w' where
  off host hoff := h.off host (h'.off host hoff)
  tasks id t ht hdone hnot := (h'.tasks id t ht hdone hnot).elim
    (fun ha => (h.acts ha).imp_right h'.isOn) .inr
  listeners s hs hlisted := (h'.listeners s hs hlisted).elim
    (fun ha => (h.acts ha).imp_right h'.isOn) .inr
  transports t ht hclosed := (h'.transports t ht hclosed).elim
    (fun ha => (h.acts ha).imp_right h'.isOn) .inr
  endpoints d hd hclosed := (h'.endpoints d hd hclosed).elim
    (fun ha => (h.acts ha).imp_right h'.isOn) .inr
  code owner task hcode := (h'.code owner task hcode).elim
    (fun ha => (h.acts ha).imp_right h'.isOn) .inr

theorem Grows.dark (h : Grows w w') (hdark : w.Dark) : w'.Dark := by
  intro host hoff hacts
  rcases h.acts hacts with ha | hon
  · exact hdark host (h.off host hoff) ha
  · exact Bool.eq_false_iff.mp hon hoff

/-- Frames are left, or entered by code that is powered on. -/
theorem grows_stack {stack : List Frame} (hcode : ∀ owner task, .code owner task ∈ stack →
    .code owner task ∈ w.stack ∨ w.isOff owner = false) : Grows w {w with stack := stack} :=
  { Grows.refl w with
    code := fun owner task h => (hcode owner task h).imp_left Acts.code }

theorem context_code {stack : List Frame} (h : context stack = some owner) :
    ∃ task, .code owner task ∈ stack := by
  induction stack with
  | nil => cases h
  | cons frame rest ih =>
    cases frame with
    | code host task =>
      obtain rfl := Option.some.inj h
      exact ⟨task, List.mem_cons_self⟩
    | _ =>
      obtain ⟨task, hin⟩ := ih h
      exact ⟨task, List.mem_cons_of_mem _ hin⟩

/-- Running code can act. -/
theorem running_acts (h : w.running = some owner) : w.Acts owner := by
  have hcontext : context w.stack = some owner := by
    unfold running at h
    split at h
    next hstack => rw [hstack]; exact h
    next hstack => rw [hstack]; exact h
    next hstack => rw [hstack]; exact h
    next => cases h
  obtain ⟨task, hin⟩ := context_code hcontext
  exact .code hin

/-- Frames of what is under way in the world, not code. -/
theorem grows_push {frame : Frame} (hframe : ∀ owner task, frame ≠ .code owner task) :
    Grows w (w.push frame) :=
  grows_stack fun owner task h => .inl ((List.mem_cons.mp h).resolve_left (hframe owner task).symm)

theorem grows_enter {task : Option TaskId} (h : w.Acts owner ∨ w.isOff owner = false) :
    Grows w (w.push (.code owner task)) :=
  { Grows.refl w with
    code := fun x task hin => by
      rcases List.mem_cons.mp hin with heq | hin
      · obtain ⟨rfl, rfl⟩ := Frame.code.inj heq
        exact h
      · exact .inl (.code hin) }

/-! ### Acts -/

theorem setHost_grows {new : Host} (hnew : new.crashed = true → (w.hosts host).crashed = true) :
    Grows w (w.setHost host new) where
  off h hoff := by
    rw [setHost_hosts, Function.update_apply] at hoff
    split at hoff
    next heq => exact heq ▸ hnew hoff
    next => exact hoff
  tasks _ _ ht hdone hnot := .inl (.task ht hdone hnot)
  listeners _ hs hlisted := .inl (.listener hs hlisted)
  transports _ ht hclosed := .inl (.transport ht hclosed)
  endpoints _ hd hclosed := .inl (.endpoint hd hclosed)
  code _ _ h := .inl (.code h)

theorem register_grows (w : World) (host : HostId) (id : TaskId) : Grows w (w.register host id) := by
  unfold register
  split
  · exact .refl w
  · exact setHost_grows fun h => h

theorem createTask_grows {creator : Owner} (h : w.Acts o ∨ w.isOff o = false) :
    Grows w (w.createTask creator o) := by
  have hborn : Grows w {w with tasks := w.tasks ++ [⟨o, creator, false⟩]} :=
    { Grows.refl w with
      tasks := fun id t ht hdone hnot => by
        rw [List.getElem?_append] at ht
        split at ht
        · exact .inl (.task ht hdone hnot)
        · rw [List.getElem?_singleton] at ht
          split at ht
          · obtain rfl := Option.some.inj ht
            exact h
          · cases ht }
  unfold createTask registerOwner
  split
  · exact hborn
  · exact hborn.trans (register_grows _ _ _)

/-- A spawn on a host that is powered on. -/
theorem spawnTask_grows {creator : Owner} (hup : (w.hosts host).crashed = false) :
    Grows w (w.spawnTask creator host) :=
  (createTask_grows (o := some host) (.inr hup)).trans (register_grows _ _ _)

theorem enlist_grows (host : HostId) (entry : Option FactoryId) : Grows w (w.enlist host entry) :=
  setHost_grows fun h => h

theorem closeServer_grows (id : ServerId) : Grows w (w.closeServer id) := by
  obtain ⟨htransports, hdatagrams, hstack⟩ := closeServer_frame w id
  have hstill := closeServer_still w id
  have hhosts : (w.closeServer id).hosts = w.hosts := by
    unfold closeServer
    split <;> rfl
  refine ⟨fun h hoff => hhosts ▸ hoff, fun id t ht hdone hnot => ?_, fun s hs hlisted => ?_,
    fun t ht hclosed => ?_, fun d hd hclosed => ?_, fun x task hcode => ?_⟩
  · exact .inl (.task (hstill.tasks ▸ ht) hdone (hstill.crashed ▸ hnot))
  · obtain ⟨i, hi⟩ := List.getElem?_of_mem hs
    obtain ⟨s₀, hs₀, hown, hends⟩ := closeServer_ends w id i s hi
    exact .inl (hown ▸ .listener (List.mem_of_getElem? hs₀) (hends hlisted).1)
  · exact .inl (.transport (htransports ▸ ht) hclosed)
  · exact .inl (.endpoint (hdatagrams ▸ hd) hclosed)
  · exact .inl (.code (hstack ▸ hcode))

/-- Transports keep their owners, and are not opened again. -/
theorem transports_grow {ts : List Transport} (h : ∀ t ∈ ts, t.closed = false →
    ∃ t₀ ∈ w.transports, t₀.owner = t.owner ∧ t₀.closed = false) :
    Grows w {w with transports := ts} :=
  { Grows.refl w with
    transports := fun t ht hclosed => by
      obtain ⟨t₀, ht₀, hown, hopen⟩ := h t ht hclosed
      exact .inl (hown ▸ .transport ht₀ hopen) }

theorem datagrams_grow {ds : List Datagram} (h : ∀ d ∈ ds, d.closed = false →
    ∃ d₀ ∈ w.datagrams, d₀.owner = d.owner ∧ d₀.closed = false) :
    Grows w {w with datagrams := ds} :=
  { Grows.refl w with
    endpoints := fun d hd hclosed => by
      obtain ⟨d₀, hd₀, hown, hopen⟩ := h d hd hclosed
      exact .inl (hown ▸ .endpoint hd₀ hopen) }

theorem modify_mem {α : Type} {l : List α} {g : α → α} {id : Nat} {x' : α}
    (h : x' ∈ l.modify id g) : ∃ x ∈ l, x' = g x ∨ x' = x := by
  obtain ⟨i, hi⟩ := List.getElem?_of_mem h
  obtain ⟨x, hx, hcase⟩ := modify_get hi
  exact ⟨x, List.mem_of_getElem? hx, hcase.imp And.right And.right⟩

theorem Reaches.grows {dial : Dial} (h : Reaches w dial w') : Grows w w' := by
  cases h with
  | none => exact .refl w
  | stashed => exact { Grows.refl w with }
  | pairs => exact grows_push nofun

theorem Does.grows {a : Act} (hacts : w.Acts owner) (hnot : ∀ host, a ≠ .crash host)
    (h : Does w owner a w') : Grows w w' := by
  cases h with
  | refused => exact .refl w
  | createTask => exact createTask_grows (.inl hacts)
  | calls => exact grows_push nofun
  | spawns host hup =>
    refine (enlist_grows host none).trans (spawnTask_grows ?_)
    unfold enlist
    rw [setHost_hosts, Function.update_self]
    exact hup
  | crash host => exact absurd rfl (hnot host)
  | restart host =>
    refine (setHost_grows fun h => ?_).trans (grows_push nofun)
    cases h
  | listen address =>
    refine { Grows.refl w with listeners := fun s hs hlisted => ?_ }
    rcases List.mem_append.mp hs with hs | hs
    · exact .inl (.listener hs hlisted)
    · exact .inl (List.mem_singleton.mp hs ▸ hacts)
  | closeServer id => exact closeServer_grows id
  | waits => exact { Grows.refl w with code := nofun }
  | dials _ _ _ _ _ _ _ _ _ hreach => exact hreach.grows
  | claims sock =>
    have htaken : Grows w {w with
        pendingSocks := w.pendingSocks.filter fun e => decide (e.1 ≠ sock)} := { Grows.refl w with }
    exact htaken.trans (grows_push nofun)
  | openDatagram address =>
    have hopened : Grows w {w with datagrams := w.datagrams ++ [⟨address, owner, false, false⟩]} :=
      { Grows.refl w with
        endpoints := fun d hd hclosed => by
          rcases List.mem_append.mp hd with hd | hd
          · exact .inl (.endpoint hd hclosed)
          · exact .inl (List.mem_singleton.mp hd ▸ hacts) }
    refine hopened.trans (grows_enter ?_)
    exact .inl (.endpoint (d := ⟨address, owner, false, false⟩)
      (List.mem_append_right _ (List.mem_singleton.mpr rfl)) rfl)
  | closeDatagram id =>
    refine datagrams_grow fun d hd hclosed => ?_
    obtain ⟨d₀, hd₀, rfl | rfl⟩ := modify_mem hd
    · exact ⟨d₀, hd₀, rfl, hclosed⟩
    · exact ⟨d, hd₀, rfl, hclosed⟩
  | closeTransport id =>
    refine transports_grow fun t ht hclosed => ?_
    obtain ⟨t₀, ht₀, rfl | rfl⟩ := modify_mem ht
    · exact ⟨t₀, ht₀, rfl, hclosed⟩
    · exact ⟨t, ht₀, rfl, hclosed⟩
  | forceClose id =>
    refine transports_grow fun t ht hclosed => ?_
    obtain ⟨t₀, ht₀, rfl | rfl⟩ := modify_mem ht
    · split at hclosed
      next hwas => exact nomatch hwas.symm.trans hclosed
      next => cases hclosed
    · exact ⟨t, ht₀, rfl, hclosed⟩
  | resetConnections a b =>
    refine transports_grow fun t ht hclosed => ?_
    obtain ⟨t₀, ht₀, rfl⟩ := List.mem_map.mp ht
    refine ⟨t₀, ht₀, ?_, ?_⟩
    · dsimp only
      split <;> rfl
    · dsimp only at hclosed
      split at hclosed <;> exact hclosed
  | block | unblock | heal => exact { Grows.refl w with }

/-! ### Callbacks -/

/-- A transport's callback keeps the owner and opens nothing; it runs on an open transport, or
is the `connection_lost` of a forced close. -/
theorem onTransport_spec {callback : Callback} {id : TransportId}
    {f : Transport → Option Transport} (hf : callback.onTransport = some (id, f)) {t t' : Transport}
    (h : f t = some t') : t'.owner = t.owner ∧ (t'.closed = false → t.closed = false) ∧
      (t.closed = false ∨ callback = .lost id) := by
  cases callback with
  | pump =>
    obtain ⟨rfl, rfl⟩ := Prod.mk.inj (Option.some.inj hf)
    dsimp only at h
    split at h
    next => cases h
    next hopen =>
      obtain rfl := Option.some.inj h
      exact ⟨rfl, fun h => h, .inl (Bool.eq_false_iff.mpr hopen)⟩
  | finalize | reset =>
    obtain ⟨rfl, rfl⟩ := Prod.mk.inj (Option.some.inj hf)
    dsimp only at h
    split at h
    next hdue =>
      obtain rfl := Option.some.inj h
      exact ⟨rfl, nofun, .inl ((Bool.not_eq_true' _).mp (Bool.and_eq_true_iff.mp hdue).2)⟩
    next => cases h
  | lost =>
    obtain ⟨rfl, rfl⟩ := Prod.mk.inj (Option.some.inj hf)
    dsimp only at h
    split at h
    next =>
      obtain rfl := Option.some.inj h
      exact ⟨rfl, fun h => h, .inr rfl⟩
    next => cases h
  | receive | shut => cases hf

theorem onDatagram_spec {callback : Callback} {id : DatagramId} {f : Datagram → Option Datagram}
    (hf : callback.onDatagram = some (id, f)) {d d' : Datagram} (h : f d = some d') :
    d'.owner = d.owner ∧ d.closed = false := by
  cases callback with
  | receive =>
    obtain ⟨rfl, rfl⟩ := Prod.mk.inj (Option.some.inj hf)
    dsimp only at h
    split at h
    next => cases h
    next hopen =>
      obtain rfl := Option.some.inj h
      exact ⟨rfl, Bool.eq_false_iff.mpr hopen⟩
  | shut =>
    obtain ⟨rfl, rfl⟩ := Prod.mk.inj (Option.some.inj hf)
    dsimp only at h
    split at h
    next hdue =>
      obtain rfl := Option.some.inj h
      exact ⟨rfl, (Bool.not_eq_true' _).mp (Bool.and_eq_true_iff.mp hdue).2⟩
    next => cases h
  | pump | finalize | reset | lost => cases hf

theorem unwind_mem {stack left : List Frame} (h : unwind stack = some left) {frame : Frame}
    (hin : frame ∈ left) : frame ∈ stack := by
  unfold unwind at h
  split at h
  case h_6 => cases h
  all_goals
    obtain rfl := Option.some.inj h
    simp [hin]

/-- **No step powers a host off, or gives anything to one that is**, but a crash, and where a
step does not spare it. -/
theorem step_grows {e : Event} (h : w.step e = some w') (hspares : w.spares e = true)
    (hnot : ∀ host, e ≠ .act (.crash host)) : Grows w w' := by
  -- frames that were left are not entered
  have hleft {frame : Frame} {rest : List Frame} (hstack : w.stack = frame :: rest) :
      Grows w {w with stack := rest} :=
    grows_stack fun x task hin => .inl (hstack ▸ List.mem_cons_of_mem _ hin)
  cases step_moves h with
  | pick => exact { Grows.refl w with }
  | collect | root => exact grows_enter (.inr rfl)
  | run id t hidle hhand ht =>
    have hon : w.isOff t.host = false := by simpa [spares, hhand, ht] using hspares
    refine { Grows.refl w with code := fun x task hin => .inr ?_ }
    obtain ⟨rfl, _⟩ := Frame.code.inj (List.mem_singleton.mp hin)
    exact hon
  | resume id t dial hidle hhand ht =>
    have hon : w.isOff t.host = false := by simpa [spares, hhand, ht] using hspares
    refine { Grows.refl w with code := fun x task hin => .inr ?_ }
    have hframe := (List.mem_cons.mp hin).resolve_left nofun
    obtain ⟨rfl, _⟩ := Frame.code.inj (List.mem_singleton.mp hframe)
    exact hon
  | onTransport callback id f t t' _ hf ht ht' =>
    obtain ⟨hown, hopen, hruns⟩ := onTransport_spec hf ht'
    have hset : Grows w {w with transports := w.transports.set id t'} := by
      refine transports_grow fun u hu hclosed => ?_
      rcases List.mem_or_eq_of_mem_set hu with hu | rfl
      · exact ⟨u, hu, rfl, hclosed⟩
      · exact ⟨t, List.mem_of_getElem? ht, hown.symm, hopen hclosed⟩
    refine { hset with code := fun x task hin => ?_ }
    rcases List.mem_cons.mp hin with heq | hin
    · obtain ⟨rfl, rfl⟩ := Frame.code.inj heq
      rcases hruns with hclosed | rfl
      · exact .inl (.transport (List.mem_of_getElem? ht) hclosed)
      · have hon : w.isOff t.owner = false := by simpa [spares, ht] using hspares
        exact .inr hon
    · exact .inl (.code hin)
  | onDatagram callback id f d d' _ hf hd hd' =>
    obtain ⟨hown, hopen⟩ := onDatagram_spec hf hd'
    have hset : Grows w {w with datagrams := w.datagrams.set id d'} := by
      refine datagrams_grow fun u hu hclosed => ?_
      rcases List.mem_or_eq_of_mem_set hu with hu | rfl
      · exact ⟨u, hu, rfl, hclosed⟩
      · exact ⟨d, List.mem_of_getElem? hd, hown.symm, hopen⟩
    refine { hset with code := fun x task hin => ?_ }
    rcases List.mem_cons.mp hin with heq | hin
    · obtain ⟨rfl, rfl⟩ := Frame.code.inj heq
      exact .inl (.endpoint (List.mem_of_getElem? hd) hopen)
    · exact .inl (.code hin)
  | act a owner _ howner hdoes =>
    exact hdoes.grows (running_acts howner) fun host heq => hnot host (heq ▸ rfl)
  | finish finished host id rest hstack =>
    refine { hleft hstack with tasks := fun i t ht hdone hcrashed => ?_ }
    obtain ⟨t₀, ht₀, ⟨_, rfl⟩ | ⟨_, rfl⟩⟩ := modify_get ht
    · exact .inl (.task (t := t₀) ht₀ (Bool.or_eq_false_iff.mp hdone).1 hcrashed)
    · exact .inl (.task ht₀ hdone hcrashed)
  | leave _ _ _ hstack => exact hleft hstack
  | restarted _ _ _ hstack => exact hleft hstack
  | raise stack hunwind => exact grows_stack fun owner task hin => .inl (unwind_mem hunwind hin)
  | spawned host factory rest owner hstack =>
    refine ((hleft hstack).trans (enlist_grows host _)).trans (spawnTask_grows ?_)
    unfold enlist
    rw [setHost_hosts, Function.update_self]
    simpa [spares, hstack] using hspares
  | respawn host factory more rest hstack =>
    refine grows_stack fun x task hin => .inl ?_
    rw [hstack]
    simpa using hin
  | waits dial host task rest hstack =>
    exact { Grows.refl w with
      code := fun x task' hx => .inl (.code (by
        rw [hstack]
        exact List.mem_cons_of_mem _ (List.mem_cons_of_mem _ hx))) }
  | redial dial host task rest hstack _ _ hreach => exact (hleft hstack).trans hreach.grows
  | paired id client rest hstack =>
    simp only [spares, hstack, Bool.and_eq_true, Bool.not_eq_true'] at hspares
    obtain ⟨hserver, hclient⟩ := hspares
    refine { Grows.refl w with transports := fun t ht hclosed => ?_, code := fun x task hin => ?_ }
    · rcases List.mem_append.mp ht with ht | ht
      · exact .inl (.transport ht hclosed)
      · refine .inr ?_
        rcases List.mem_cons.mp ht with rfl | ht
        · exact hclient
        · exact List.mem_singleton.mp ht ▸ hserver
    · rcases List.mem_cons.mp hin with heq | hin
      · obtain ⟨rfl, rfl⟩ := Frame.code.inj heq
        exact .inr hserver
      · have hrest : .code x task ∈ rest := (List.mem_cons.mp hin).resolve_left nofun
        exact .inl (.code (hstack ▸ List.mem_cons_of_mem _ hrest))
  | greet id t rest hstack ht =>
    refine grows_stack fun x task hin => ?_
    rcases List.mem_cons.mp hin with heq | hin
    · obtain ⟨rfl, rfl⟩ := Frame.code.inj heq
      exact .inr (by simpa [spares, hstack, ht] using hspares)
    · exact .inl (hstack ▸ List.mem_cons_of_mem _ hin)

/-! ### Runs -/

theorem isOutside_crash (h : w.isOutside (.act (.crash host)) = true) (task : Option TaskId) :
    .code (some host) task ∉ w.stack := by
  intro hin
  have hframe := List.all_eq_true.mp h _ hin
  simp [Frame.runsOn] at hframe

/-- Where the steps spare hosts that are powered off, and crashes come from outside, what is
powered off stays dark. -/
theorem keeps_dark : Transition.Keeps step (fun w e => w.isOutside e = true ∧ w.spares e = true)
    fun w => w.Enrolled ∧ w.Dark := by
  rintro w e w' ⟨houtside, hspares⟩ ⟨he, hdark⟩ h
  refine ⟨he.enrols (step_enrols h), ?_⟩
  by_cases hcrash : ∃ host, e = .act (.crash host)
  · obtain ⟨host, rfl⟩ := hcrash
    obtain ⟨owner, _, hact⟩ := Option.bind_eq_some_iff.mp h
    obtain rfl := Option.some.inj hact
    cases hup : (w.hosts host).crashed with
    | true =>
      unfold crash
      rw [if_pos hup]
      exact hdark
    | false =>
      intro x hoff hacts
      obtain ⟨hbefore, hne⟩ := crash_acts he hup (isOutside_crash houtside) hacts
      refine hdark x ?_ hbefore
      rw [← crash_hosts_ne hup fun heq => hne (heq ▸ rfl)]
      exact hoff
  · exact (step_grows h hspares fun host heq => hcrash ⟨host, heq⟩).dark hdark

theorem dark_start : start.Dark := fun _ h => nomatch h

/-- **A host that is powered off owns nothing that can act**, in every run whose crashes are
made outside of the host and whose steps spare hosts that are powered off. -/
theorem powered_off_dark {es : List Event} (hrun : Transition.run step start es = some w)
    (houtside : Transition.Along step (fun w e => w.isOutside e = true) start es)
    (hspares : Transition.Along step (fun w e => w.spares e = true) start es) : w.Dark :=
  (keeps_dark.run (houtside.and hspares) ⟨enrolled_start, dark_start⟩ hrun).2

/-- A host that listens is crashed by the root world. -/
theorem powered_off_dark_sample :
    let es := [.root, .act (.spawn 0 (some 0)), .spawned, .leave false, .pick 0, .run,
      .act (.listen (1, 80)), .leave false, .root, .act (.crash 0)]
    ∃ w, Transition.run step start es = some w ∧ w.Dark := by
  intro es
  have hrun : Transition.run step start es = some _ := rfl
  exact ⟨_, hrun, powered_off_dark hrun (by decide) (by decide)⟩

/-- A socket is connected to host 0 by `sock_connect`, host 0 crashes, and
`create_connection(sock=...)` pairs with it all the same: host 0 then has a live transport and,
made by its protocol, a task that is not crashed. -/
theorem stashed_pairing_acts : ∃ es w, Transition.run step start es = some w ∧
    Transition.Along step (fun w e => w.isOutside e = true) start es ∧
    (w.hosts 0).crashed = true ∧ (∃ t ∈ w.transports, t.owner = some 0 ∧ t.closed = false) ∧
    ∃ t, w.tasks[2]? = some t ∧ t.host = some 0 ∧ t.done = false ∧ 2 ∉ w.crashed := by
  let es : List Event := [.root, .act .createTask, .act (.spawn 0 (some 0)), .spawned, .leave false,
    .pick 1, .run, .act (.listen (1, 80)), .leave false,
    .pick 0, .run, .act (.dial (1, 80) (some 7)), .act (.crash 0), .act (.connectSock 7), .paired,
    .act .createTask]
  refine ⟨es, _, rfl, by decide, by decide, by decide, _, rfl, rfl, rfl, by decide⟩

end World

end Simloom
