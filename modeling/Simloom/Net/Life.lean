import Simloom.Net.Transport

/-! The life of one endpoint, seen by its protocol.

A `Life` is what decides which callbacks an endpoint still makes: whether its
`connection_made` is due, whether it is closed and listed as live, the `connection_lost`
that are scheduled, and where its pump is. `Sound` says that the callbacks so far are in
order: `connection_made` first, `connection_lost` at most once and last. Streams and
datagram endpoints refine it. -/
namespace Simloom
open Theory

/-- What a callback is to its protocol: its first, its last, or one between. -/
inductive Role where
  | made
  | received
  | lost
deriving DecidableEq

def Call.role : Call → Role
  | .connectionMade => .made
  | .connectionLost _ => .lost
  | _ => .received

/-- The first callback, any number between, and at most one last. -/
def Role.Orderly (roles : List Role) : Prop :=
  ∃ k, roles = .made :: List.replicate k .received ∨
    roles = .made :: List.replicate k .received ++ [.lost]

namespace Role
variable {roles : List Role}

theorem count_lost_replicate (k : Nat) :
    (Role.made :: List.replicate k .received).count .lost = 0 := by
  simp [List.count_replicate]

/-- Without a last callback there may be more. -/
theorem Orderly.open (h : Orderly roles) (hlost : roles.count .lost = 0) :
    ∃ k, roles = .made :: List.replicate k .received := by
  obtain ⟨k, rfl | rfl⟩ := h
  · exact ⟨k, rfl⟩
  · rw [List.count_append, count_lost_replicate] at hlost
    cases hlost

theorem Orderly.receive (h : Orderly roles) (hlost : roles.count .lost = 0) :
    Orderly (roles ++ [.received]) := by
  obtain ⟨k, rfl⟩ := h.open hlost
  refine ⟨k + 1, .inl ?_⟩
  rw [List.replicate_succ', List.cons_append]

theorem Orderly.lose (h : Orderly roles) (hlost : roles.count .lost = 0) :
    Orderly (roles ++ [.lost]) := by
  obtain ⟨k, rfl⟩ := h.open hlost
  exact ⟨k, .inr rfl⟩

end Role

/-! ### Lives -/

/-- `due` is the protocol whose `connection_made` is still to be called, `losing` are those
whose `connection_lost` is scheduled; `pumping` is the protocol that the pump looked up, and
whether the pump is in a call on it. -/
structure Life where
  protocol : Protocol
  due : Option Protocol
  closed : Bool
  listed : Nat
  losing : List Protocol
  pumping : Option (Protocol × Bool)
  calls : List (Protocol × Role)

namespace Life

def roles (l : Life) : List Role := l.calls.map Prod.snd

/-- An endpoint whose `connection_made` has been called, or is due. -/
def told (p : Protocol) : Life := ⟨p, none, false, 1, [], none, [(p, .made)]⟩

def untold (p : Protocol) : Life := ⟨p, some p, false, 1, [], none, []⟩

def call (l : Life) (p : Protocol) (r : Role) : Life := {l with calls := l.calls ++ [(p, r)]}

@[simp] theorem roles_call (l : Life) (p : Protocol) (r : Role) :
    (l.call p r).roles = l.roles ++ [r] := by
  simp [roles, call]

/-- What can happen in a life. Its end is `kill` without a callback, `force` with one that is
scheduled, `finish` with one at once. -/
inductive Act where
  | tell
  | kill
  | force
  | finish
  | lose (p : Protocol) (rest : List Protocol)
  | pump
  | engage
  | update
  | returned
  | rest
  | forget
  | replace (p : Protocol)
deriving DecidableEq

/-- Closed, and no longer listed. -/
def kill (l : Life) : Life := {l with closed := true, listed := l.listed - 1}

def step (l : Life) : Act → Option Life
  | .tell => l.due.map fun p => {l.call p .made with due := none}
  | .kill => some l.kill
  | .force => if l.closed = false then some {l.kill with losing := l.losing ++ [l.protocol]} else none
  | .finish =>
    if l.due = none ∧ l.pumping = none ∧ l.closed = false then some (l.kill.call l.protocol .lost)
    else none
  | .lose p rest =>
    if l.due = none ∧ l.pumping = none ∧ l.losing.Perm (p :: rest) then
      some ({l with losing := rest}.call p .lost)
    else none
  | .pump =>
    if l.due = none ∧ l.pumping = none then some {l with pumping := some (l.protocol, false)}
    else none
  | .engage =>
    match l.pumping with
    | some (p, false) =>
      if l.closed = false then some ({l with pumping := some (p, true)}.call p .received) else none
    | _ => none
  | .update =>
    match l.pumping with
    | some (p, true) => some (l.call p .received)
    | _ => none
  | .returned =>
    match l.pumping with
    | some (p, true) => some {l with pumping := some (p, false)}
    | _ => none
  | .rest => some {l with pumping := none}
  | .forget => some {l with losing := []}
  | .replace p => some {l with protocol := p}

/-- How many `connection_lost` there are, made or scheduled. -/
def ends (l : Life) : Nat := l.losing.length + l.roles.count .lost

/-- The callbacks so far are in order. -/
structure Sound (l : Life) : Prop where
  listed : l.listed = if l.closed then 0 else 1
  once : l.ends ≤ 1
  ended : 0 < l.ends → l.closed = true
  engaged : ∀ p, l.pumping = some (p, true) → l.roles.count .lost = 0
  untold : l.due.isSome → l.calls = [] ∧ l.pumping = none
  told : l.due = none → Role.Orderly l.roles

variable {l : Life}

theorem sound_told (p : Protocol) : (told p).Sound where
  listed := rfl
  once := Nat.zero_le 1
  ended := fun h => absurd h (Nat.lt_irrefl 0)
  engaged := fun _ _ => rfl
  untold := fun h => Bool.noConfusion h
  told := fun _ => ⟨0, .inl rfl⟩

theorem sound_untold (p : Protocol) : (untold p).Sound where
  listed := rfl
  once := Nat.zero_le 1
  ended := fun h => absurd h (Nat.lt_irrefl 0)
  engaged := fun _ _ => rfl
  untold := fun _ => ⟨rfl, rfl⟩
  told := nofun

namespace Sound

/-- An open endpoint has no end, made or scheduled. -/
theorem endless (h : l.Sound) (hopen : l.closed = false) : l.ends = 0 := by
  by_contra hends
  rw [h.ended (Nat.pos_of_ne_zero hends)] at hopen
  cases hopen

theorem kill (h : l.Sound) : l.kill.Sound where
  listed := by
    show l.listed - 1 = 0
    rw [h.listed]
    split <;> rfl
  once := h.once
  ended := fun _ => rfl
  engaged := h.engaged
  untold := h.untold
  told := h.told

/-- One more callback between the first and the last. -/
theorem receive (h : l.Sound) {p : Protocol} {b : Bool} (hpumping : l.pumping = some (p, b))
    (hlost : l.roles.count .lost = 0) : (l.call p .received).Sound := by
  have hdue : l.due = none := by
    cases hd : l.due with
    | none => rfl
    | some q =>
      rw [(h.untold (by rw [hd]; rfl)).2] at hpumping
      cases hpumping
  have hroles : (l.call p .received).roles.count .lost = l.roles.count .lost := by simp
  have hends : (l.call p .received).ends = l.ends := by
    unfold ends
    rw [hroles]
    rfl
  refine ⟨h.listed, hends ▸ h.once, fun hpos => h.ended (hends ▸ hpos), fun _ _ => hroles ▸ hlost,
    fun hsome => ?_, fun _ => ?_⟩
  · have hsome' : l.due.isSome := hsome
    rw [hdue] at hsome'
    cases hsome'
  · rw [roles_call]
    exact (h.told hdue).receive hlost

/-- The last callback. -/
theorem lose (h : l.Sound) {losing : List Protocol} (p : Protocol) (hdue : l.due = none)
    (hpumping : l.pumping = none) (hclosed : l.closed = true) (hlosing : losing = [])
    (hlost : l.roles.count .lost = 0) : ({l with losing := losing}.call p .lost).Sound := by
  have hroles : ({l with losing := losing}.call p .lost).roles = l.roles ++ [.lost] := by simp [roles, call]
  have hends : ({l with losing := losing}.call p .lost).ends = 1 := by
    unfold ends
    rw [hroles, List.count_append, hlost]
    simp [call, hlosing]
  refine ⟨h.listed, hends.le, fun _ => hclosed, fun q hq => ?_, fun hsome => ?_, fun _ => ?_⟩
  · have hq' : l.pumping = some (q, true) := hq
    rw [hpumping] at hq'
    cases hq'
  · have hsome' : l.due.isSome := hsome
    rw [hdue] at hsome'
    cases hsome'
  · rw [hroles]
    exact (h.told hdue).lose hlost

end Sound

theorem keeps_sound (P : Life → Act → Prop) : Transition.Keeps step P Sound := by
  intro l a l' _ h hs
  cases a with
  | tell =>
    obtain ⟨p, hp, rfl⟩ := Option.map_eq_some_iff.mp hs
    obtain ⟨hcalls, hpumping⟩ := h.untold (by rw [hp]; rfl)
    have hroles : ({l.call p .made with due := none} : Life).roles = [.made] := by
      simp [roles, call, hcalls]
    have hends : ({l.call p .made with due := none} : Life).ends = l.ends := by
      unfold ends
      rw [hroles, show l.roles = [] by simp [roles, hcalls]]
      rfl
    refine ⟨h.listed, hends ▸ h.once, fun hpos => h.ended (hends ▸ hpos), fun q hq => ?_, nofun,
      fun _ => ?_⟩
    · rw [hroles]
      rfl
    · rw [hroles]
      exact ⟨0, .inl rfl⟩
  | kill => exact Option.some.inj hs ▸ h.kill
  | force =>
    obtain ⟨hopen, hs⟩ := Option.ite_none_right_eq_some.mp hs
    have hzero := h.endless hopen
    have hends : ({l.kill with losing := l.losing ++ [l.protocol]} : Life).ends = l.ends + 1 := by
      show (l.losing ++ [l.protocol]).length + _ = l.losing.length + _ + 1
      rw [List.length_append]
      exact Nat.add_right_comm _ _ _
    exact Option.some.inj hs ▸ ⟨h.kill.listed, by rw [hends, hzero], fun _ => rfl, h.engaged, h.untold,
      h.told⟩
  | finish =>
    obtain ⟨⟨hdue, hpumping, hopen⟩, hs⟩ := Option.ite_none_right_eq_some.mp hs
    obtain ⟨hlosing, hlost⟩ := Nat.add_eq_zero_iff.mp (h.endless hopen)
    exact Option.some.inj hs ▸
      h.kill.lose l.protocol hdue hpumping rfl (List.eq_nil_of_length_eq_zero hlosing) hlost
  | lose p rest =>
    obtain ⟨⟨hdue, hpumping, hp⟩, hs⟩ := Option.ite_none_right_eq_some.mp hs
    have hlength : l.losing.length = rest.length + 1 := hp.length_eq
    have honce : l.losing.length + l.roles.count .lost ≤ 1 := h.once
    have hlost : l.roles.count .lost = 0 := by omega
    have hpos : 0 < l.losing.length + l.roles.count .lost := by omega
    exact Option.some.inj hs ▸ h.lose p hdue hpumping (h.ended hpos)
      (List.eq_nil_of_length_eq_zero (by omega)) hlost
  | pump =>
    obtain ⟨⟨hdue, hpumping⟩, hs⟩ := Option.ite_none_right_eq_some.mp hs
    refine Option.some.inj hs ▸ ⟨h.listed, h.once, h.ended, fun q hq => (nomatch hq), fun hsome => ?_,
      h.told⟩
    have hsome' : l.due.isSome := hsome
    rw [hdue] at hsome'
    cases hsome'
  | engage =>
    simp only [step] at hs
    split at hs
    next p hp =>
      obtain ⟨hopen, hs⟩ := Option.ite_none_right_eq_some.mp hs
      have hlost := (Nat.add_eq_zero_iff.mp (h.endless hopen)).2
      have hsound : Sound {l with pumping := some (p, true)} := by
        refine ⟨h.listed, h.once, h.ended, fun _ _ => hlost, fun hsome => ?_, h.told⟩
        have hnone := (h.untold hsome).2
        rw [hp] at hnone
        cases hnone
      exact Option.some.inj hs ▸ hsound.receive rfl hlost
    next => cases hs
  | update =>
    simp only [step] at hs
    split at hs
    next p hp => exact Option.some.inj hs ▸ h.receive hp (h.engaged p hp)
    next => cases hs
  | returned =>
    simp only [step] at hs
    split at hs
    next p hp =>
      refine Option.some.inj hs ▸ ⟨h.listed, h.once, h.ended, fun q hq => (nomatch hq), fun hsome => ?_,
        h.told⟩
      have hnone := (h.untold hsome).2
      rw [hp] at hnone
      cases hnone
    next => cases hs
  | rest =>
    exact Option.some.inj hs ▸ ⟨h.listed, h.once, h.ended, fun q hq => (nomatch hq),
      fun hsome => ⟨(h.untold hsome).1, rfl⟩, h.told⟩
  | forget =>
    have hle : ({l with losing := []} : Life).ends ≤ l.ends := Nat.add_le_add_right (Nat.zero_le _) _
    exact Option.some.inj hs ▸ ⟨h.listed, hle.trans h.once, fun hpos => h.ended (hpos.trans_le hle),
      h.engaged, h.untold, h.told⟩
  | replace p =>
    exact Option.some.inj hs ▸ ⟨h.listed, h.once, h.ended, h.engaged, h.untold, h.told⟩

/-! ### Whose callbacks they are -/

/-- All callbacks, made or to come, are the endpoint's own protocol's. -/
structure Faithful (l : Life) : Prop where
  due : ∀ p, l.due = some p → p = l.protocol
  losing : ∀ p ∈ l.losing, p = l.protocol
  pumping : ∀ p b, l.pumping = some (p, b) → p = l.protocol
  calls : ∀ c ∈ l.calls, c.1 = l.protocol

theorem faithful_told (p : Protocol) : (told p).Faithful :=
  ⟨nofun, nofun, nofun, fun c hc => by rw [List.mem_singleton.mp hc]; rfl⟩

theorem faithful_untold (p : Protocol) : (untold p).Faithful :=
  ⟨fun _ hq => (Option.some.inj hq).symm, nofun, nofun, nofun⟩

theorem Faithful.call (h : l.Faithful) {p : Protocol} (hp : p = l.protocol) (r : Role) :
    (l.call p r).Faithful where
  due := h.due
  losing := h.losing
  pumping := h.pumping
  calls := fun c hc => by
    rcases List.mem_append.mp hc with hc | hc
    · exact h.calls c hc
    · rw [List.mem_singleton.mp hc]
      exact hp

/-- The protocol stays. -/
def SameProtocol (_ : Life) (a : Act) : Prop := ∀ p, a ≠ .replace p

theorem keeps_faithful : Transition.Keeps step SameProtocol Faithful := by
  intro l a l' hkeeps h hs
  cases a with
  | tell =>
    obtain ⟨p, hp, rfl⟩ := Option.map_eq_some_iff.mp hs
    exact { h.call (h.due p hp) .made with due := nofun }
  | kill => exact Option.some.inj hs ▸ { h with }
  | force =>
    obtain ⟨_, hs⟩ := Option.ite_none_right_eq_some.mp hs
    refine Option.some.inj hs ▸ { h with losing := fun p hp => ?_ }
    rcases List.mem_append.mp hp with hp | hp
    · exact h.losing p hp
    · exact List.mem_singleton.mp hp
  | finish =>
    obtain ⟨_, hs⟩ := Option.ite_none_right_eq_some.mp hs
    have hkill : l.kill.Faithful := { h with }
    exact Option.some.inj hs ▸ hkill.call rfl .lost
  | lose p rest =>
    obtain ⟨⟨_, _, hp⟩, hs⟩ := Option.ite_none_right_eq_some.mp hs
    have hrest : Faithful {l with losing := rest} :=
      { h with losing := fun q hq => h.losing q (hp.mem_iff.mpr (List.mem_cons_of_mem p hq)) }
    exact Option.some.inj hs ▸ hrest.call (h.losing p (hp.mem_iff.mpr List.mem_cons_self)) .lost
  | pump =>
    obtain ⟨_, hs⟩ := Option.ite_none_right_eq_some.mp hs
    refine Option.some.inj hs ▸ { h with pumping := fun q b hq => ?_ }
    cases hq
    rfl
  | engage =>
    simp only [step] at hs
    split at hs
    next p hp =>
      obtain ⟨_, hs⟩ := Option.ite_none_right_eq_some.mp hs
      have hengaged : Faithful {l with pumping := some (p, true)} :=
        { h with pumping := fun q b hq => by cases hq; exact h.pumping p false hp }
      exact Option.some.inj hs ▸ hengaged.call (h.pumping p false hp) .received
    next => cases hs
  | update =>
    simp only [step] at hs
    split at hs
    next p hp => exact Option.some.inj hs ▸ h.call (h.pumping p true hp) .received
    next => cases hs
  | returned =>
    simp only [step] at hs
    split at hs
    next p hp =>
      exact Option.some.inj hs ▸
        { h with pumping := fun q b hq => by cases hq; exact h.pumping p true hp }
    next => cases hs
  | rest => exact Option.some.inj hs ▸ { h with pumping := fun _ _ hq => nomatch hq }
  | forget => exact Option.some.inj hs ▸ { h with losing := fun _ hp => nomatch hp }
  | replace p => exact absurd rfl (hkeeps p)

/-- Acts of which none replaces the protocol. -/
theorem Faithful.reaches {l l' : Life} (h : l.Faithful)
    (hr : Transition.Reaches step (fun l a => True → l.SameProtocol a) l l') : l'.Faithful :=
  (keeps_faithful.mono fun _ _ hsame => hsame trivial).reaches h hr

end Life

end Simloom
