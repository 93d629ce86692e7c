import Simloom.Services.Queue
import Mathlib.Order.Nat

/-! What a command does to the keys and to its connection.

Whatever a command is, it is made of few steps (`Made`). So later, versions are higher, and a key
keeps its value as long as it keeps its version; and a connection is left idle by whatever ends a
transaction. -/
namespace Simloom.Services
open Theory

/-! ### What connections share -/

/-- The keys with their values and versions. -/
structure Keyspace where
  store : Dict Bytes Bytes
  version : Dict Bytes Nat

def SimRedis.keyspace (r : SimRedis) : Keyspace := ⟨r.store, r.version⟩

def Keyspace.versionOf (k : Keyspace) (key : Bytes) : Nat := (k.version.get? key).getD 0

def Keyspace.redis (k : Keyspace) : SimRedis := ⟨k.store, k.version, []⟩

/-- Later, versions are higher; a key keeps its value as long as it keeps its version. -/
instance : Preorder Keyspace where
  le a b := ∀ key, a.versionOf key ≤ b.versionOf key ∧
    (a.versionOf key = b.versionOf key → a.store.get? key = b.store.get? key)
  le_refl a key := ⟨le_refl _, fun _ => rfl⟩
  le_trans a b c h h' key := by
    obtain ⟨hle, hsame⟩ := h key
    obtain ⟨hle', hsame'⟩ := h' key
    exact ⟨le_trans hle hle', fun heq => (hsame (by omega)).trans (hsame' (by omega))⟩

/-! ### What a connection remembers -/

namespace Connection

/-- Nothing watched, and no transaction open. -/
def idle (c : Connection) : Bool := c.watched.entries.isEmpty && c.queue.isNone

/-- Watched versions are from now or before, and only what is queued is in the queue. -/
structure Remembers (k : Keyspace) (c : Connection) : Prop where
  watched : ∀ key v, c.watched.get? key = some v → v ≤ k.versionOf key
  queued : ∀ queue, c.queue = some queue → ∀ command ∈ queue, command.verb.immediate = false

/-- No watched key has changed. -/
def UpToDate (k : Keyspace) (c : Connection) : Prop :=
  ∀ key v, c.watched.get? key = some v → k.versionOf key = v

/-- What may be done at once inside a transaction. -/
def MayDo (c : Connection) (args : List Bytes) : Verb → Prop
  | .set | .del | .count _ _ => False
  | .get | .exists => ∀ key ∈ args, c.watched.get? key ≠ none
  | .watch => ∀ key ∈ args, c.watched.get? key = none
  | _ => True

/-- Inside a transaction only watched keys are read, none is watched twice, and what is
written is queued. -/
def Careful (c : Connection) (command : Command) : Prop :=
  c.idle = true ∨ (c.queue.isSome = true ∧ command.verb.immediate = false) ∨
    c.MayDo command.tail command.verb

instance (c : Connection) (args : List Bytes) (v : Verb) : Decidable (c.MayDo args v) := by
  cases v <;> unfold MayDo <;> infer_instance

instance (c : Connection) (command : Command) : Decidable (c.Careful command) :=
  inferInstanceAs (Decidable (_ ∨ _ ∨ _))

theorem upToDate_iff (c : Connection) (r : SimRedis) :
    c.UpToDate r.keyspace ↔ c.stale r = false := by
  simp only [stale, List.any_eq_false, decide_eq_true_eq, not_not, Prod.forall, Dict.mem_entries]
  exact Iff.rfl

theorem idle_iff {c : Connection} : c.idle = true ↔ c.watched = .empty ∧ c.queue = none := by
  unfold idle
  rw [Bool.and_eq_true, List.isEmpty_iff, Option.isNone_iff_eq_none]
  refine and_congr_left fun _ => ⟨fun h => ?_, fun h => h ▸ rfl⟩
  cases hw : c.watched with
  | mk entries nodup =>
    rw [hw] at h
    subst h
    rfl

end Connection

namespace Served

/-! ### What a command is made of -/

/-- A relation that is kept by the steps commands are made of. -/
structure Made (P : Served → Served → Prop) : Prop where
  refl : ∀ s, P s s
  trans : ∀ {a b c}, P a b → P b c → P a c
  put : ∀ (s : Served) key value, P s (s.withRedis ((s.redis.put key value).bump key))
  remove : ∀ (s : Served) key, P s (s.withRedis ((s.redis.remove key).bump key))
  watch : ∀ (s : Served) key, P s (s.watchKey key)
  unwatch : ∀ s : Served, P s s.unwatch
  queue : ∀ (s : Served) queue, P s (s.withQueue queue)

namespace Made
variable {P : Served → Served → Prop} (h : Made P)
include h

theorem of_delete (s : Served) (keys : List Bytes) :
    P s (s.withRedis (s.redis.delete keys).1) := by
  induction keys generalizing s with
  | nil => exact h.refl s
  | cons key rest ih =>
    rw [SimRedis.delete]
    split
    · exact h.trans (h.remove s key) (ih _)
    · exact ih s

theorem of_watch (s : Served) (keys : List Bytes) : P s (keys.foldl watchKey s) := by
  induction keys generalizing s with
  | nil => exact h.refl s
  | cons key rest ih => exact h.trans (h.watch s key) (ih _)

theorem of_dispatchWith {exec : Served → Outcome} (s : Served) (name : Bytes)
    (args : List Bytes) (hexec : P s (exec s).1) : P s (s.dispatchWith exec name args).1 := by
  unfold dispatchWith
  cases verb name with
  | set =>
    rcases args with _ | ⟨key, _ | ⟨value, rest⟩⟩
    · exact h.refl s
    · exact h.refl s
    · exact h.put s key value
  | get => cases args <;> exact h.refl s
  | del => exact h.of_delete s args
  | count down byArgument =>
    dsimp only
    cases s.redis.counted down byArgument args with
    | ok done => exact h.put s _ _
    | error e => exact h.refl s
  | watch => exact h.of_watch s args
  | unwatch => exact h.unwatch s
  | multi => exact h.queue s _
  | discard => exact h.trans (h.queue s none) (h.unwatch _)
  | exec => exact hexec
  | hello | handshake | ping | «exists» | unknown => exact h.refl s

theorem of_redispatch (s : Served) (command : Command) : P s (s.redispatch command).1 := by
  cases command with
  | nil => exact h.refl s
  | cons name args =>
    exact h.of_dispatchWith s (upper name) args (h.refl s)

theorem of_runQueue (s : Served) (commands : List Command) : P s (s.runQueue commands).1 := by
  induction commands generalizing s with
  | nil => exact h.refl s
  | cons command rest ih =>
    have hfirst := h.of_redispatch s command
    rw [runQueue]
    rcases hd : s.redispatch command with ⟨s₁, e | reply⟩
    · rwa [hd] at hfirst
    · rw [hd] at hfirst
      have hrest := ih s₁
      dsimp only
      rcases hr : s₁.runQueue rest with ⟨s₂, e | replies⟩ <;> rw [hr] at hrest <;>
        exact h.trans hfirst hrest

theorem of_exec (s : Served) : P s s.exec.1 := by
  unfold exec
  cases s.conn.queue with
  | none => exact h.refl s
  | some queued =>
    have hgo : P s (s.withQueue none).unwatch := h.trans (h.queue s none) (h.unwatch _)
    dsimp only
    split
    · exact hgo
    · have hrun := h.of_runQueue (s.withQueue none).unwatch queued
      rcases hr : (s.withQueue none).unwatch.runQueue queued with ⟨s₁, e | replies⟩ <;>
        rw [hr] at hrun <;> exact h.trans hgo hrun

/-- What a command does is made of these steps. -/
theorem of_handle (s : Served) (command : Command) : P s (s.handle command).1 := by
  rcases s.handle_cases command with ⟨commands, _, _, _, hd⟩ | ⟨_, hd⟩ | ⟨name, args, _, _, hd⟩
  · exact hd ▸ h.queue s _
  · exact hd ▸ h.refl s
  · rw [hd]
    exact h.of_dispatchWith s (upper name) args (h.of_exec s)

end Made

/-! ### Versions only grow -/

/-- The keys are in a later state, and watched versions are not ahead of them. -/
structure Moves (s s' : Served) : Prop where
  later : s.redis.keyspace ≤ s'.redis.keyspace
  watched : (∀ key v, s.conn.watched.get? key = some v → v ≤ s.redis.versionOf key) →
    ∀ key v, s'.conn.watched.get? key = some v → v ≤ s'.redis.versionOf key

theorem Moves.trans {a b c : Served} (h : a.Moves b) (h' : b.Moves c) : a.Moves c :=
  ⟨le_trans h.later h'.later, fun hw => h'.watched (h.watched hw)⟩

/-- A key gets a new version with its new value. -/
theorem moves_bump (s : Served) {r : SimRedis} (key : Bytes) (hversion : r.version = s.redis.version)
    (hstore : ∀ k, k ≠ key → r.store.get? k = s.redis.store.get? k) :
    s.Moves (s.withRedis (r.bump key)) := by
  have hbump : ∀ k, (r.bump key).versionOf k =
      if k = key then s.redis.versionOf key + 1 else s.redis.versionOf k := by
    intro k
    unfold SimRedis.versionOf SimRedis.bump
    rw [Dict.get?_set, SimRedis.versionOf, hversion]
    split <;> rfl
  constructor
  · intro k
    show s.redis.versionOf k ≤ (r.bump key).versionOf k ∧
      (s.redis.versionOf k = (r.bump key).versionOf k →
        s.redis.store.get? k = r.store.get? k)
    rw [hbump k]
    by_cases hk : k = key
    · subst hk
      simp
    · simp [hk, hstore k hk]
  · intro hw k v hv
    have hold := hw k v hv
    show v ≤ (r.bump key).versionOf k
    rw [hbump k]
    split
    next hk => subst hk; omega
    next => exact hold

theorem moves_watchKey (s : Served) (key : Bytes) : s.Moves (s.watchKey key) := by
  refine ⟨le_refl s.redis.keyspace, fun hw k v hv => ?_⟩
  change (s.conn.watched.set key (s.redis.versionOf key)).get? k = some v at hv
  rw [Dict.get?_set] at hv
  show v ≤ s.redis.versionOf k
  split at hv
  next hk =>
    subst hk
    exact (Option.some.inj hv).ge
  next => exact hw k v hv

theorem moves_unwatch (s : Served) : s.Moves s.unwatch := by
  refine ⟨le_refl s.redis.keyspace, fun _ k v hv => ?_⟩
  change (Dict.empty : Dict Bytes Nat).get? k = some v at hv
  simp at hv

theorem moves_handle (s : Served) (command : Command) : s.Moves (s.handle command).1 := by
  apply Made.of_handle
  constructor
  · exact fun s => ⟨le_refl _, fun hw => hw⟩
  · exact fun h h' => h.trans h'
  · intro s key value
    refine s.moves_bump key rfl fun k hk => ?_
    show (s.redis.store.set key value).get? k = _
    rw [Dict.get?_set, if_neg hk]
  · intro s key
    refine s.moves_bump key rfl fun k hk => ?_
    show (s.redis.store.pop key).get? k = _
    rw [Dict.get?_pop, if_neg hk]
  · exact moves_watchKey
  · exact moves_unwatch
  · exact fun s _ => ⟨le_refl s.redis.keyspace, fun hw => hw⟩

/-! ### What leaves a connection idle -/

theorem handle_now (s : Served) {name : Bytes} (args : List Bytes)
    (h : s.conn.queue = none ∨ (verb (upper name)).immediate = true) :
    s.handle (name :: args) = s.dispatch (upper name) args := by
  unfold handle
  cases hq : s.conn.queue with
  | none => rfl
  | some queue =>
    rw [hq] at h
    simp [h.resolve_left (Option.some_ne_none queue)]

theorem redispatch_idle {s : Served} {command : Command}
    (hcommand : command.verb.immediate = false) (hidle : s.conn.idle = true) :
    (s.redispatch command).1.conn.idle = true := by
  cases command with
  | nil => exact hidle
  | cons name args =>
    have hverb : (verb (upper name)).immediate = false := hcommand
    rw [redispatch]
    unfold dispatchWith
    cases hv : verb (upper name) with
    | set => rcases args with _ | ⟨key, _ | ⟨value, rest⟩⟩ <;> exact hidle
    | get => cases args <;> exact hidle
    | count down byArgument =>
      dsimp only
      cases s.redis.counted down byArgument args <;> exact hidle
    | unwatch =>
      obtain ⟨_, hqueue⟩ := Connection.idle_iff.mp hidle
      exact Connection.idle_iff.mpr ⟨rfl, hqueue⟩
    | watch | multi | discard | exec => simp [hv, Verb.immediate] at hverb
    | hello | handshake | ping | del | «exists» | unknown => exact hidle

theorem runQueue_idle {s : Served} {queue : List Command}
    (hqueue : ∀ command ∈ queue, command.verb.immediate = false) (hidle : s.conn.idle = true) :
    (s.runQueue queue).1.conn.idle = true := by
  induction queue generalizing s with
  | nil => exact hidle
  | cons command rest ih =>
    obtain ⟨hcommand, hrest⟩ := List.forall_mem_cons.mp hqueue
    have hfirst := redispatch_idle hcommand hidle
    rw [runQueue]
    rcases hd : s.redispatch command with ⟨s₁, e | reply⟩ <;> rw [hd] at hfirst
    · exact hfirst
    · have hlater := ih hrest hfirst
      dsimp only at hlater ⊢
      rcases hr : s₁.runQueue rest with ⟨s₂, e | replies⟩ <;> rw [hr] at hlater <;> exact hlater

theorem idle_released (s : Served) : (s.withQueue none).unwatch.conn.idle = true :=
  Connection.idle_iff.mpr ⟨rfl, rfl⟩

/-- `EXEC` ends a transaction. -/
theorem exec_idle {s : Served} {queue : List Command} (hopen : s.conn.queue = some queue)
    (hqueue : ∀ command ∈ queue, command.verb.immediate = false) : s.exec.1.conn.idle = true := by
  unfold exec
  rw [hopen]
  dsimp only
  split
  · exact s.idle_released
  · have hrun := runQueue_idle hqueue s.idle_released
    rcases hr : (s.withQueue none).unwatch.runQueue queue with ⟨s₁, e | replies⟩ <;>
      rw [hr] at hrun <;> exact hrun

/-- Only what is queued comes into the queue. -/
theorem handle_queued {s : Served} (command : Command)
    (h : ∀ queue, s.conn.queue = some queue → ∀ c ∈ queue, c.verb.immediate = false) :
    ∀ queue, (s.handle command).1.conn.queue = some queue →
      ∀ c ∈ queue, c.verb.immediate = false := by
  intro queue hqueue c hc
  rcases s.handle_cases command with
    ⟨old, hold, himmediate, _, heq⟩ | ⟨_, heq⟩ | ⟨name, args, rfl, hnow, heq⟩ <;> rw [heq] at hqueue
  · rw [← Option.some.inj hqueue] at hc
    rcases List.mem_append.mp hc with hc | hc
    · exact h old hold c hc
    · exact List.mem_singleton.mp hc ▸ himmediate
  · exact h queue hqueue c hc
  · cases hv : verb (upper name) with
    | multi =>
      simp only [dispatch, dispatchWith, hv, withQueue, Option.some.injEq] at hqueue
      simp [← hqueue] at hc
    | discard => simp [dispatch, dispatchWith, hv, withQueue, unwatch] at hqueue
    | exec =>
      simp only [dispatch, dispatchWith, hv] at hqueue
      cases hq : s.conn.queue with
      | none =>
        rw [exec, hq] at hqueue
        exact h queue hqueue c hc
      | some old =>
        have hidle := exec_idle hq (h old hq)
        rw [(Connection.idle_iff.mp hidle).2] at hqueue
        cases hqueue
    | hello | handshake | ping | set | get | del | «exists» | count | watch | unwatch | unknown =>
      rw [dispatch, s.dispatchWith_queue args (by simp [hv]) (by simp [hv]) (by simp [hv])] at hqueue
      exact h queue hqueue c hc

end Served

end Simloom.Services
