import Simloom.World.Reachable

/-! What a connect by host and port pairs.

`create_connection(host, port)` waits until neither direction to the listener's host is blocked,
looks the listener up again and pairs with what it finds, after it has called the two protocol
factories. A connect has its frames right above the step of its task, so whether the pairing
there was begun by host and port, and not for a stashed socket, is watched beside the world. The
wait was for the host of the listener that was found first: `connect_unblocked` needs that no
listener on a blocked host has taken its place, and `connect_crosses` is what happens otherwise. -/
namespace Simloom
open Theory
namespace World

def Frame.isPairing : Frame → Bool
  | .pairing _ _ => true
  | _ => false

def Frame.isDialing : Frame → Bool
  | .dialing _ => true
  | _ => false

/-- The frame right above the outermost one, where the step of a task has its connect. -/
def inner (stack : List Frame) : Option Frame := stack.reverse[1]?

/-- Where a connect looks for its listener. -/
def Event.connects : Event → Bool
  | .act (.dial _ _) | .redial => true
  | _ => false

/-- `byAddress` says that the pairing that a task's step is at was begun by host and port. -/
structure Connecting where
  world : World
  byAddress : Bool

variable {w w' : World} {owner client : Owner} {id : ServerId}

/-! ### What a step does to the stack -/

theorem inner_append {new old : List Frame} (h : 1 < old.length) :
    inner (new ++ old) = inner old := by
  unfold inner
  rw [List.reverse_append, List.getElem?_append_left (by simpa using h)]

/-- Frames are put on what is left of the stack. A pairing is put on the whole of it, and a
connect goes on where there was nothing. -/
structure Restacks (w w' : World) (new : List Frame) (k : Nat) : Prop where
  stack : w'.stack = new ++ w.stack.drop k
  pairing : k = 0 ∨ ∀ f ∈ new, f.isPairing = false
  dialing : ∀ dial, .dialing dial ∈ new →
    w.stack = [] ∧ ∃ frame, new = [.dialing dial, frame] ∧ frame.isDialing = false

/-- What is put on the stack holds no connect. -/
theorem Restacks.of_forall {new : List Frame} {k : Nat} (hstack : w'.stack = new ++ w.stack.drop k)
    (hpairing : k = 0 ∨ ∀ f ∈ new, f.isPairing = false) (hdialing : ∀ f ∈ new, f.isDialing = false) :
    Restacks w w' new k :=
  ⟨hstack, hpairing, fun dial hin => absurd (hdialing _ hin) (by simp [Frame.isDialing])⟩

theorem restacks_same (h : w'.stack = w.stack) : Restacks w w' [] 0 :=
  Restacks.of_forall h (.inl rfl) nofun

theorem restacks_push {frame : Frame} (h : w'.stack = frame :: w.stack)
    (hdialing : frame.isDialing = false) : Restacks w w' [frame] 0 :=
  .of_forall h (.inl rfl) (by simpa using hdialing)

theorem restacks_drop {k : Nat} (h : w'.stack = w.stack.drop k) : Restacks w w' [] k :=
  .of_forall h (.inr fun _ h => absurd h List.not_mem_nil) nofun

theorem crash_stack (w : World) (host : HostId) : (w.crash host).stack = w.stack := by
  unfold crash
  split
  · rfl
  · rw [(closeServers_frame _ host).2.2, (dropDatagrams_frame _ host).2.2,
      (dropTransports_frame _ host).2.2]
    rfl

theorem registerOwner_stack (w : World) (owner : Owner) (id : TaskId) :
    (w.registerOwner owner id).stack = w.stack := by
  cases owner with
  | none => rfl
  | some host =>
    show (w.register host id).stack = w.stack
    unfold register
    split <;> rfl

theorem register_stack (w : World) (host : HostId) (id : TaskId) :
    (w.register host id).stack = w.stack := registerOwner_stack w (some host) id

theorem createTask_stack (w : World) (creator host : Owner) :
    (w.createTask creator host).stack = w.stack := registerOwner_stack _ creator _

theorem spawnTask_stack (w : World) (creator : Owner) (host : HostId) :
    (w.spawnTask creator host).stack = w.stack :=
  (register_stack _ host _).trans (createTask_stack w creator (some host))

theorem Does.restacks {a : Act} (hnot : (Event.act a).connects = false)
    (h : Does w owner a w') : ∃ new k, Restacks w w' new k := by
  cases h with
  | createTask => exact ⟨_, _, restacks_same (createTask_stack w owner owner)⟩
  | spawns host => exact ⟨_, _, restacks_same (spawnTask_stack _ owner host)⟩
  | crash host => exact ⟨_, _, restacks_same (crash_stack w host)⟩
  | closeServer id => exact ⟨_, _, restacks_same (closeServer_frame w id).2.2⟩
  | calls | restart | claims | openDatagram => exact ⟨_, _, restacks_push rfl rfl⟩
  | waits | dials => cases hnot
  | _ => exact ⟨_, _, restacks_same rfl⟩

theorem unwind_drop {stack left : List Frame} (h : unwind stack = some left) :
    ∃ k, left = stack.drop k := by
  unfold unwind at h
  split at h
  · exact ⟨2, (Option.some.inj h).symm⟩
  · exact ⟨1, (Option.some.inj h).symm⟩
  · exact ⟨1, (Option.some.inj h).symm⟩
  · exact ⟨1, (Option.some.inj h).symm⟩
  · exact ⟨2, (Option.some.inj h).symm⟩
  · cases h

theorem step_restacks {e : Event} (hnot : e.connects = false) (h : w.step e = some w') :
    ∃ new k, Restacks w w' new k := by
  cases step_moves h with
  | pick => exact ⟨_, _, restacks_same rfl⟩
  | collect | root | onTransport | onDatagram => exact ⟨_, _, restacks_push rfl rfl⟩
  | run id task hidle =>
    exact ⟨[.code task.host (some id)], 0,
      .of_forall (by simp [hidle]) (.inl rfl) (by simp [Frame.isDialing])⟩
  | resume id task dial hidle =>
    refine ⟨[.dialing dial, .code task.host (some id)], 0, by simp [hidle], .inl rfl,
      fun d hd => ⟨hidle, .code task.host (some id), ?_, rfl⟩⟩
    simp only [List.mem_cons, List.not_mem_nil, or_false, reduceCtorEq, Frame.dialing.injEq] at hd
    rw [hd]
  | act _ _ _ _ hdoes => exact hdoes.restacks hnot
  | leave _ _ _ hstack => exact ⟨_, 1, restacks_drop (by simp [hstack])⟩
  | finish _ _ _ _ hstack => exact ⟨_, 1, restacks_drop (by simp [hstack])⟩
  | restarted _ _ _ hstack => exact ⟨_, 1, restacks_drop (by simp [hstack])⟩
  | raise stack hunwind =>
    obtain ⟨k, hk⟩ := unwind_drop hunwind
    exact ⟨_, k, restacks_drop hk⟩
  | spawned host factory rest owner hstack =>
    exact ⟨_, 1, restacks_drop (by rw [spawnTask_stack, hstack]; rfl)⟩
  | respawn host factory more rest hstack =>
    exact ⟨[.spawning host factory, .restarting host more], 1,
      .of_forall (by simp [hstack]) (.inr (by simp [Frame.isPairing])) (by simp [Frame.isDialing])⟩
  | waits | redial => cases hnot
  | paired id client rest hstack =>
    exact ⟨[.code (w.ownerOf id) none, .greeting w.transports.length], 1,
      .of_forall (by simp [hstack, pair]) (.inr (by simp [Frame.isPairing]))
        (by simp [Frame.isDialing])⟩
  | greet client t rest hstack =>
    exact ⟨[.code t.owner none], 1,
      .of_forall (by simp [hstack]) (.inr (by simp [Frame.isPairing])) (by simp [Frame.isDialing])⟩

/-- A pairing above a task's step was there before, if a connect was. -/
theorem Restacks.inner {new : List Frame} {k : Nat} {frame : Frame} (h : Restacks w w' new k)
    (hlong : 1 < w.stack.length) (hframe : World.inner w'.stack = some frame)
    (hpairing : frame.isPairing = true) : World.inner w.stack = some frame := by
  rw [h.stack] at hframe
  rcases Nat.lt_or_ge 1 (w.stack.drop k).length with hleft | hleft
  · rw [inner_append hleft] at hframe
    rw [← List.take_append_drop k w.stack, inner_append hleft, hframe]
  · rcases h.pairing with rfl | hnone
    · rw [List.drop_zero] at hleft
      omega
    · unfold World.inner at hframe
      rw [List.reverse_append, List.getElem?_append_right (by simpa using hleft)] at hframe
      have hin := List.mem_reverse.mp (List.mem_of_getElem? hframe)
      rw [hnone frame hin] at hpairing
      cases hpairing

/-! ### Connects by host and port -/

namespace Connecting
variable {c c' : Connecting}

def start : Connecting := ⟨World.start, false⟩

/-- A connect that has looked for its listener is at its pairing, or at none. -/
def step (c : Connecting) (e : Event) : Option Connecting :=
  (c.world.step e).map fun w =>
    ⟨w, (e.connects || c.byAddress) && (inner w.stack).any Frame.isPairing⟩

/-- The server and the client of the connect by host and port that is calling its protocol
factories. -/
def target (c : Connecting) : Option (ServerId × Owner) :=
  if c.byAddress then
    match inner c.world.stack with
    | some (.pairing id client) => some (id, client)
    | _ => none
  else none

/-- What a connect by host and port pairs with is reachable when it pairs. -/
def Unblocked (c : Connecting) (e : Event) : Prop :=
  e = .paired → c.world.stack.length = 2 → ∀ id client, c.target = some (id, client) →
    c.world.Reachable id client

/-- A connect that wakes up finds no listener that it would have had to wait for, and the protocol
factories that it calls do not sever it. -/
def steady (c : Connecting) : Event → Bool
  | .redial => match c.world.stack with
    | .dialing dial :: _ => dial.sock.isSome || c.world.isCut dial.owner (c.world.ownerOf dial.server) ||
        (c.world.listener dial.address).all fun id => !c.world.isCut dial.owner (c.world.ownerOf id)
    | _ => true
  | .act act => c.target.all fun t => !c.world.severs t.1 t.2 act
  | _ => true

/-- A connect is the only thing above its task's step, the mark is on a pairing, and what that
pairs with is reachable. -/
structure Sound (c : Connecting) : Prop where
  dialing : ∀ dial, .dialing dial ∈ c.world.stack →
    ∃ frame, c.world.stack = [.dialing dial, frame] ∧ frame.isDialing = false
  marked : c.byAddress = true → (inner c.world.stack).any Frame.isPairing = true
  reachable : ∀ id client, c.target = some (id, client) → c.world.Reachable id client

theorem target_eq : c.target = some (id, client) ↔
    c.byAddress = true ∧ inner c.world.stack = some (.pairing id client) := by
  unfold target
  split
  next hby =>
    split
    next id' client' hinner =>
      rw [hinner]
      simp [hby]
    next hno =>
      refine iff_of_false nofun fun h => hno id client h.2
  next hby => exact iff_of_false nofun fun h => hby h.1

/-- Without a connect. -/
theorem sound_short (hstack : w.stack.length ≤ 1) (hdialing : ∀ f ∈ w.stack, f.isDialing = false)
    (byAddress : Bool) : Sound ⟨w, byAddress && (inner w.stack).any Frame.isPairing⟩ := by
  have hinner : inner w.stack = none := by simpa [inner] using hstack
  refine ⟨fun dial hin => absurd (hdialing _ hin) (by simp [Frame.isDialing]), by simp [hinner],
    fun id client ht => ?_⟩
  have hpairing := (target_eq.mp ht).2
  rw [hinner] at hpairing
  cases hpairing

/-- The step of a connect's task after the lookup, when the listener found is not cut off. -/
theorem sound_reach {dial : Dial} {frame : Frame} (h : Reaches w dial w') (hstack : w.stack = [frame])
    (hframe : frame.isDialing = false)
    (hclear : dial.sock = none → ∀ id, w.listener dial.address = some id →
      w.isCut dial.owner (w.ownerOf id) = false) (byAddress : Bool) :
    Sound ⟨w', byAddress && (inner w'.stack).any Frame.isPairing⟩ := by
  cases h with
  | none => exact sound_short (by simp [hstack]) (by simpa [hstack] using hframe) _
  | stashed => exact sound_short (by simp [hstack]) (by simpa [hstack] using hframe) _
  | pairs id hsock hid hserving =>
    have hinner : inner (w.push (.pairing id dial.owner)).stack = some (.pairing id dial.owner) := by
      simp [push, hstack, inner]
    refine ⟨fun d hd => ?_, by simp, fun id' client ht => ?_⟩
    · simp only [push, hstack, List.mem_cons, List.not_mem_nil, or_false, reduceCtorEq, false_or] at hd
      rw [← hd] at hframe
      cases hframe
    · rw [hinner] at ht
      have heq := (target_eq.mp ht).2
      simp only at heq
      rw [hinner] at heq
      obtain ⟨rfl, rfl⟩ := Frame.pairing.inj (Option.some.inj heq)
      exact ⟨hclear hsock id hid, hserving⟩

theorem sound_start : start.Sound := sound_short (w := World.start) (Nat.zero_le 1) nofun false

/-- A connect that waits or looks for its listener goes on, or its task is cancelled. -/
theorem dialing_step {dial : Dial} {frame : Frame} {e : Event}
    (hstack : w.stack = [.dialing dial, frame]) (hnot : e.connects = false)
    (h : w.step e = some w') : w'.stack = [frame] := by
  cases e with
  | raise =>
    obtain ⟨stack, hunwind, rfl⟩ := Option.map_eq_some_iff.mp h
    rw [hstack] at hunwind
    exact (Option.some.inj hunwind).symm
  | redial => cases hnot
  | act a =>
    obtain ⟨owner, hrunning, _⟩ := Option.bind_eq_some_iff.mp h
    simp [running, hstack] at hrunning
  | _ => simp [World.step, hstack] at h

theorem sound_other {e : Event} (hs : c.Sound) (hsteady : c.steady e = true)
    (hnot : e.connects = false) (h : c.world.step e = some w) :
    Sound ⟨w, (e.connects || c.byAddress) && (inner w.stack).any Frame.isPairing⟩ := by
  obtain ⟨new, k, hmoves⟩ := step_restacks hnot h
  refine ⟨fun dial hin => ?_, fun hmark => (Bool.and_eq_true_iff.mp hmark).2, fun id client ht => ?_⟩
  · dsimp only at hin ⊢
    by_cases hd : ∃ d, .dialing d ∈ c.world.stack
    · obtain ⟨d, hd⟩ := hd
      obtain ⟨frame, hstack, hframe⟩ := hs.dialing d hd
      rw [dialing_step hstack hnot h, List.mem_singleton] at hin
      rw [← hin] at hframe
      cases hframe
    · rw [hmoves.stack] at hin ⊢
      rcases List.mem_append.mp hin with hnew | hold
      · obtain ⟨hempty, frame, hframe, hnone⟩ := hmoves.dialing dial hnew
        exact ⟨frame, by rw [hframe, hempty]; simp, hnone⟩
      · exact absurd ⟨dial, List.mem_of_mem_drop hold⟩ hd
  · obtain ⟨hmark, hinner⟩ := target_eq.mp ht
    rw [hnot, Bool.false_or] at hmark
    have hby : c.byAddress = true := (Bool.and_eq_true_iff.mp hmark).1
    have hlong : 1 < c.world.stack.length := by
      have hany := hs.marked hby
      by_contra hshort
      have hnone : inner c.world.stack = none := by simpa [inner] using hshort
      rw [hnone] at hany
      cases hany
    have htarget : c.target = some (id, client) :=
      target_eq.mpr ⟨hby, hmoves.inner hlong hinner rfl⟩
    refine step_reachable h (hs.reachable id client htarget) fun a ha => ?_
    subst ha
    simpa [steady, htarget] using hsteady

/-- A connect is above its task's step, and above nothing else. -/
theorem Sound.alone (hs : c.Sound) {dial : Dial} {frame : Frame} {rest : List Frame}
    (hstack : c.world.stack = .dialing dial :: frame :: rest) : rest = [] := by
  obtain ⟨_, hone, _⟩ := hs.dialing dial (by simp [hstack])
  rw [hstack] at hone
  exact (List.cons.inj (List.cons.inj hone).2).2

/-- **A steady step keeps it.** -/
theorem sound_step {e : Event} (hs : c.Sound) (hsteady : c.steady e = true)
    (h : c.step e = some c') : c'.Sound := by
  obtain ⟨w, hw, rfl⟩ := Option.map_eq_some_iff.mp h
  cases hconnects : e.connects with
  | false => exact hconnects ▸ sound_other hs hsteady hconnects hw
  | true =>
    cases step_moves hw with
    | act a owner _ _ hdoes =>
      cases hdoes with
      | refused _ hdial =>
        obtain ⟨address, sock, rfl⟩ : ∃ address sock, a = .dial address sock := by
          cases a with
          | dial address sock => exact ⟨address, sock, rfl⟩
          | _ => cases hconnects
        obtain ⟨host, task, hstack⟩ := hdial address sock rfl
        exact sound_short (by simp [hstack]) (by simp [hstack, Frame.isDialing]) _
      | waits => exact sound_short (by simp) (by simp) _
      | dials address sock id host task hstack hid hclear _ hreach =>
        refine sound_reach hreach hstack rfl (fun _ id' hid' => ?_) _
        obtain rfl := Option.some.inj (hid.symm.trans hid')
        exact hclear
      | _ => cases hconnects
    | waits dial host task rest hstack =>
      obtain rfl := hs.alone hstack
      exact sound_short (by simp) (by simp) _
    | redial dial host task rest hstack hclear _ hreach =>
      obtain rfl := hs.alone hstack
      refine sound_reach hreach rfl rfl (fun hsock id hid => ?_) _
      simp only [steady, hstack, hsock, Option.isSome_none, Bool.false_or, hclear] at hsteady
      have hall : c.world.listener dial.address = some id := hid
      rw [hall] at hsteady
      have hopen : c.world.isCut dial.owner (c.world.ownerOf id) = false := by simpa using hsteady
      exact hopen
    | _ => cases hconnects

theorem keeps_sound : Transition.Keeps step (fun c e => c.steady e = true) Sound :=
  fun _ _ _ hsteady hs h => sound_step hs hsteady h

/-- **A connect by host and port pairs with a server that serves and that it can reach**, in every
run whose steps are steady. -/
theorem connect_unblocked (es : List Event)
    (hsteady : Transition.Along step (fun c e => c.steady e = true) start es) :
    Transition.Along step Unblocked start es := by
  refine Transition.along_iff.mpr fun before e later c hes hrun => ?_
  subst hes
  have hs : c.Sound := keeps_sound.run hsteady.before sound_start hrun
  exact fun _ _ id client ht => hs.reachable id client ht

/-- Three hosts, and a server on host 1. -/
def listening : List Event :=
  [.root, .act (.spawn 0 (some 0)), .spawned, .act (.spawn 1 (some 1)), .spawned,
    .act (.spawn 2 (some 2)), .spawned, .leave false,
    .pick 1, .run, .act (.listen (1, 80)), .leave false]

/-- A partition of hosts 0 and 1, across which host 0 connects. -/
def waiting : List Event :=
  listening ++ [.root, .act (.block (some 0) (some 1)), .act (.block (some 1) (some 0)), .leave false,
    .pick 0, .run, .act (.dial (1, 80) none)]

/-- The partition heals, and the connect pairs. -/
def healed : List Event :=
  waiting ++ [.root, .act .heal, .leave false, .pick 0, .run, .redial]

theorem connect_unblocked_healed :
    (∃ c, Transition.run step start healed = some c ∧ c.target = some (0, some 0) ∧
      c.world.stack.length = 2) ∧
    Transition.Along step Unblocked start (healed ++ [.paired]) :=
  ⟨⟨_, rfl, by decide, by decide⟩, connect_unblocked _ (by decide)⟩

/-- While the connect sleeps, host 1 closes its server, host 2 listens at the address, and the
partition moves to hosts 0 and 2. -/
def rebound : List Event :=
  waiting ++ [.pick 1, .run, .act (.closeServer 0), .leave false,
    .pick 2, .run, .act (.listen (1, 80)), .leave false,
    .root, .act (.block (some 0) (some 2)), .act (.block (some 2) (some 0)),
    .act (.unblock (some 0) (some 1)), .act (.unblock (some 1) (some 0)), .leave false,
    .pick 0, .run, .redial]

/-- The connect then pairs with host 2, across the partition. -/
theorem connect_crosses : ¬∀ es, Transition.Along step Unblocked start es := by
  intro hall
  have hrun : Transition.run step start rebound = some _ := rfl
  have hreach := Transition.along_iff.mp (hall (rebound ++ [.paired])) rebound .paired [] _ rfl hrun
    rfl (by decide) 1 (some 0) (by decide)
  exact absurd hreach.clear (by decide)

end Connecting

end World

end Simloom
