import Simloom.Services.Keyspace

/-! What is read inside a transaction is read again.

A command of a careful connection that leaves it inside a transaction changes no key, and on any
later keyspace in which what is watched is up to date it does and answers the same (`reads`). -/
namespace Simloom.Services
open Theory

namespace Served

/-! ### What is read inside a transaction -/

/-- The command only reads, and it reads the same as long as what the connection then
remembers is up to date. -/
structure Reads (s : Served) (command : Command) : Prop where
  same : (s.handle command).1.redis.keyspace = s.redis.keyspace
  again : ∀ r : SimRedis, s.redis.keyspace ≤ r.keyspace →
    (s.handle command).1.conn.UpToDate r.keyspace → s.conn.UpToDate r.keyspace ∧
      ((⟨r, s.conn⟩ : Served).handle command).1.redis.keyspace = r.keyspace ∧
      ((⟨r, s.conn⟩ : Served).handle command).1.conn = (s.handle command).1.conn ∧
      ((⟨r, s.conn⟩ : Served).handle command).2 = (s.handle command).2

/-- A command that leaves the server and what is watched alone. -/
theorem reads_fixed {s : Served} {command : Command} {c : Connection}
    (reply : SimRedis → Except Fault Reply) (hwatched : c.watched = s.conn.watched)
    (hreply : ∀ r : SimRedis, s.redis.keyspace ≤ r.keyspace → s.conn.UpToDate r.keyspace →
      reply r = reply s.redis)
    (h : ∀ r, (⟨r, s.conn⟩ : Served).handle command = (⟨r, c⟩, reply r)) : s.Reads command := by
  have hs : s.handle command = (⟨s.redis, c⟩, reply s.redis) := h s.redis
  constructor
  · rw [hs]
  · intro r hlater hup
    rw [hs] at hup ⊢
    have hup' : s.conn.UpToDate r.keyspace := by
      intro key v hv
      exact hup key v (hwatched ▸ hv)
    rw [h r]
    exact ⟨hup', rfl, rfl, hreply r hlater hup'⟩

theorem reads_constant {s : Served} {name : Bytes} {args : List Bytes} {c : Connection}
    (hnow : s.conn.queue = none ∨ (verb (upper name)).immediate = true)
    (hwatched : c.watched = s.conn.watched)
    (h : ∀ r, (⟨r, s.conn⟩ : Served).dispatch (upper name) args =
      (⟨r, c⟩, (s.dispatch (upper name) args).2)) : s.Reads (name :: args) :=
  reads_fixed (fun _ => (s.dispatch (upper name) args).2) hwatched (fun _ _ _ => rfl) fun r =>
    (handle_now ⟨r, s.conn⟩ args hnow).trans (h r)

/-- A watched key that is up to date has the value it had. -/
theorem value_same {c : Connection} {k k' : Keyspace} (hc : c.Remembers k) (hlater : k ≤ k')
    (hup : c.UpToDate k') {key : Bytes} (hkey : c.watched.get? key ≠ none) :
    k'.store.get? key = k.store.get? key := by
  obtain ⟨v, hv⟩ := Option.ne_none_iff_exists'.mp hkey
  obtain ⟨hle, hsame⟩ := hlater key
  have hthen := hc.watched key v hv
  have hnow := hup key v hv
  exact (hsame (by omega)).symm

theorem get?_sets (versions : Bytes → Nat) (keys : List Bytes) (w : Dict Bytes Nat) (key : Bytes) :
    (keys.foldl (fun w k => w.set k (versions k)) w).get? key =
      if key ∈ keys then some (versions key) else w.get? key := by
  induction keys generalizing w with
  | nil => simp
  | cons k rest ih =>
    rw [List.foldl_cons, ih, Dict.get?_set]
    by_cases hk : key = k
    · subst hk
      simp
    · simp [hk]

theorem watch_eq (s : Served) (keys : List Bytes) :
    (keys.foldl watchKey s).redis.keyspace = s.redis.keyspace ∧
      (keys.foldl watchKey s).conn = {s.conn with
        watched := keys.foldl (fun w k => w.set k (s.redis.versionOf k)) s.conn.watched} := by
  induction keys generalizing s with
  | nil => exact ⟨rfl, rfl⟩
  | cons key rest ih => exact ih (s.watchKey key)

/-- `WATCH` of keys that were not watched. -/
theorem reads_watch {s : Served} {name : Bytes} {args : List Bytes}
    (hv : verb (upper name) = .watch) (hfree : ∀ key ∈ args, s.conn.watched.get? key = none) :
    s.Reads (name :: args) := by
  have heq : ∀ r, (⟨r, s.conn⟩ : Served).handle (name :: args) =
      (args.foldl watchKey ⟨r, s.conn⟩, .ok .ok) := by
    intro r
    rw [handle_now _ args (.inr (by rw [hv]; rfl))]
    simp only [dispatch, dispatchWith, hv]
  have hs : s.handle (name :: args) = (args.foldl watchKey s, .ok .ok) := heq s.redis
  constructor
  · rw [hs]
    exact (s.watch_eq args).1
  · intro r hlater hup
    rw [hs] at hup ⊢
    rw [heq r]
    obtain ⟨hkeys, hconn⟩ := watch_eq ⟨r, s.conn⟩ args
    rw [(s.watch_eq args).2] at hup ⊢
    have hversions : ∀ key ∈ args, r.versionOf key = s.redis.versionOf key := by
      intro key hkey
      refine hup key _ ?_
      rw [get?_sets, if_pos hkey]
    refine ⟨fun key v hkey => hup key v ?_, hkeys, hconn.trans ?_, rfl⟩
    · rw [get?_sets, if_neg fun hmem => ?_]
      · exact hkey
      · rw [hfree key hmem] at hkey
        cases hkey
    · have hsets : args.foldl (fun w k => w.set k (r.versionOf k)) s.conn.watched =
          args.foldl (fun w k => w.set k (s.redis.versionOf k)) s.conn.watched :=
        List.foldl_ext _ _ _ fun w key hkey => congrArg (w.set key) (hversions key hkey)
      exact congrArg (fun w => {s.conn with watched := w}) hsets

/-- `GET` and `EXISTS` of watched keys. -/
theorem reads_watched {s : Served} {name : Bytes} {args : List Bytes}
    (hnow : s.conn.queue = none ∨ (verb (upper name)).immediate = true)
    (hc : s.conn.Remembers s.redis.keyspace)
    (hv : verb (upper name) = .get ∨ verb (upper name) = .exists)
    (hkeys : ∀ key ∈ args, s.conn.watched.get? key ≠ none) : s.Reads (name :: args) := by
  have hsame : ∀ r : SimRedis, s.redis.keyspace ≤ r.keyspace → s.conn.UpToDate r.keyspace →
      ∀ key ∈ args, r.store.get? key = s.redis.store.get? key :=
    fun r hlater hup key hkey => value_same hc hlater hup (hkeys key hkey)
  rcases hv with hv | hv
  · refine reads_fixed (c := s.conn)
      (fun r => args.head?.elim (.error .indexError) fun key => .ok (.bulk (r.store.get? key)))
      rfl (fun r hlater hup => ?_) fun r => ?_
    · cases args with
      | nil => rfl
      | cons key rest =>
        exact congrArg (fun v => Except.ok (Reply.bulk v)) (hsame r hlater hup key List.mem_cons_self)
    · rw [handle_now ⟨r, s.conn⟩ args hnow]
      simp only [dispatch, dispatchWith, hv]
      cases args <;> rfl
  · refine reads_fixed (c := s.conn)
      (fun r => .ok (.integer (args.countP fun key => (r.store.get? key).isSome)))
      rfl (fun r hlater hup => ?_) fun r => ?_
    · rw [List.countP_congr fun key hkey => by rw [hsame r hlater hup key hkey]]
    · rw [handle_now ⟨r, s.conn⟩ args hnow]
      simp only [dispatch, dispatchWith, hv]

/-- Inside a transaction a careful connection only reads. -/
theorem reads {s : Served} {command : Command} (hc : s.conn.Remembers s.redis.keyspace)
    (hcareful : s.conn.Careful command) (hopen : (s.handle command).1.conn.idle = false) :
    s.Reads command := by
  rcases s.handle_cases command with
    ⟨queue, hqueue, himmediate, hne, heq⟩ | ⟨rfl, heq⟩ | ⟨name, args, rfl, hnow, heq⟩
  · refine reads_fixed (c := {s.conn with queue := some (queue ++ [command])})
      (fun _ => .ok queuedReply) rfl (fun _ _ _ => rfl) fun r => ?_
    obtain ⟨name, args, rfl⟩ := List.exists_cons_of_ne_nil hne
    have hverb : (verb (upper name)).immediate = false := himmediate
    unfold handle
    rw [show (⟨r, s.conn⟩ : Served).conn.queue = some queue from hqueue]
    simp [hverb, withQueue, queuedReply]
  · exact reads_fixed (fun _ => .error .indexError) rfl (fun _ _ _ => rfl) fun _ => rfl
  · change s.conn.queue = none ∨ (verb (upper name)).immediate = true at hnow
    have hnot : ¬ (s.conn.queue.isSome = true ∧ (verb (upper name)).immediate = false) := by
      rintro ⟨hsome, himmediate⟩
      rcases hnow with hnone | hverb
      · simp [hnone] at hsome
      · exact absurd (hverb.symm.trans himmediate) (by decide)
    rw [heq] at hopen
    -- A command that leaves the connection as it is has found it inside a transaction.
    have hmay : (s.dispatch (upper name) args).1.conn = s.conn →
        s.conn.MayDo args (verb (upper name)) := by
      intro hconn
      rcases hcareful with hidle | hqueued | hmay
      · rw [hconn, hidle] at hopen
        cases hopen
      · exact absurd hqueued hnot
      · exact hmay
    cases hv : verb (upper name) with
    | hello | handshake | ping | unknown =>
      exact reads_constant hnow (c := s.conn) rfl fun r => by simp only [dispatch, dispatchWith, hv]
    | multi =>
      refine reads_constant hnow (c := {s.conn with queue := some []}) rfl fun r => ?_
      simp only [dispatch, dispatchWith, hv]
      rfl
    | get =>
      have hkeys := hmay (by simp only [dispatch, dispatchWith, hv]; cases args <;> rfl)
      rw [hv] at hkeys
      exact reads_watched hnow hc (.inl hv) hkeys
    | «exists» =>
      have hkeys := hmay (by simp only [dispatch, dispatchWith, hv])
      rw [hv] at hkeys
      exact reads_watched hnow hc (.inr hv) hkeys
    | set =>
      have hno := hmay (by
        simp only [dispatch, dispatchWith, hv]
        rcases args with _ | ⟨key, _ | ⟨value, rest⟩⟩ <;> rfl)
      rw [hv] at hno
      exact hno.elim
    | del =>
      have hno := hmay (by simp only [dispatch, dispatchWith, hv]; rfl)
      rw [hv] at hno
      exact hno.elim
    | count down byArgument =>
      have hno := hmay (by
        simp only [dispatch, dispatchWith, hv]
        cases s.redis.counted down byArgument args <;> rfl)
      rw [hv] at hno
      exact hno.elim
    | watch =>
      rcases hcareful with hidle | hqueued | hfree
      · refine reads_watch hv fun key _ => ?_
        rw [(Connection.idle_iff.mp hidle).1]
        rfl
      · exact absurd hqueued hnot
      · have hkeys : s.conn.MayDo args (verb (upper name)) := hfree
        rw [hv] at hkeys
        exact reads_watch hv hkeys
    | unwatch =>
      rw [hv] at hnow
      have hidle : (s.dispatch (upper name) args).1.conn.idle = true := by
        simp only [dispatch, dispatchWith, hv]
        exact Connection.idle_iff.mpr ⟨rfl, hnow.resolve_right (by decide)⟩
      exact absurd (hidle.symm.trans hopen) (by decide)
    | discard =>
      have hidle : (s.dispatch (upper name) args).1.conn.idle = true := by
        simp only [dispatch, dispatchWith, hv]
        exact s.idle_released
      exact absurd (hidle.symm.trans hopen) (by decide)
    | exec =>
      cases hq : s.conn.queue with
      | none =>
        refine reads_constant hnow (c := s.conn) rfl fun r => ?_
        simp only [dispatch, dispatchWith, hv, exec, hq]
        rfl
      | some queue =>
        have hidle : (s.dispatch (upper name) args).1.conn.idle = true := by
          simp only [dispatch, dispatchWith, hv]
          exact exec_idle hq (hc.queued queue hq)
        exact absurd (hidle.symm.trans hopen) (by decide)

/-! ### What is done does not depend on the history -/

def past (s : Served) (history : List Occurrence) : Served :=
  ⟨{s.redis with history := history}, s.conn⟩

def Blind {β : Type} (f : Served → Served × β) : Prop :=
  ∀ s h, ∃ h', f (s.past h) = ((f s).1.past h', (f s).2)

theorem blind_delete (keys : List Bytes) :
    Blind fun s : Served => (s.withRedis (s.redis.delete keys).1, (s.redis.delete keys).2) := by
  induction keys with
  | nil => exact fun s h => ⟨h, rfl⟩
  | cons key rest ih =>
    intro s h
    by_cases hkey : (s.redis.store.get? key).isSome = true
    · obtain ⟨h', heq⟩ := ih (s.withRedis ((s.redis.remove key).bump key)) (h ++ [.modified key])
      have hkey' : ((s.past h).redis.store.get? key).isSome = true := hkey
      refine ⟨h', ?_⟩
      simp only [SimRedis.delete, if_pos hkey, if_pos hkey']
      obtain ⟨hs, hn⟩ := Prod.mk.inj heq
      exact Prod.ext hs (congrArg (· + 1) hn)
    · have hkey' : ¬ ((s.past h).redis.store.get? key).isSome = true := hkey
      simp only [SimRedis.delete, if_neg hkey, if_neg hkey']
      exact ih s h

theorem blind_watch (keys : List Bytes) :
    Blind fun s : Served => (keys.foldl watchKey s, (Except.ok Reply.ok : Except Fault Reply)) := by
  induction keys with
  | nil => exact fun s h => ⟨h, rfl⟩
  | cons key rest ih =>
    exact fun s h => ih (s.watchKey key) (h ++ [Occurrence.watched s.conn.id key])

theorem blind_dispatchWith {exec : Served → Outcome} (hexec : Blind exec) (name : Bytes)
    (args : List Bytes) : Blind fun s => s.dispatchWith exec name args := by
  intro s h
  unfold dispatchWith
  cases verb name with
  | set =>
    rcases args with _ | ⟨key, _ | ⟨value, rest⟩⟩
    · exact ⟨h, rfl⟩
    · exact ⟨h, rfl⟩
    · exact ⟨h ++ [.modified key], rfl⟩
  | get => cases args <;> exact ⟨h, rfl⟩
  | del =>
    obtain ⟨h', heq⟩ := blind_delete args s h
    obtain ⟨hs, hn⟩ := Prod.mk.inj heq
    exact ⟨h', Prod.ext hs (congrArg (fun n : Nat => Except.ok (Reply.integer n)) hn)⟩
  | count down byArgument =>
    have hcounted : (s.past h).redis.counted down byArgument args =
        s.redis.counted down byArgument args := rfl
    dsimp only
    rw [hcounted]
    cases s.redis.counted down byArgument args with
    | ok done => exact ⟨h ++ [.modified done.1], rfl⟩
    | error e => exact ⟨h, rfl⟩
  | watch => exact blind_watch args s h
  | unwatch | discard => exact ⟨h ++ [.unwatched s.conn.id], rfl⟩
  | exec => exact hexec s h
  | hello | handshake | ping | «exists» | multi | unknown => exact ⟨h, rfl⟩

theorem blind_redispatch (command : Command) : Blind fun s => s.redispatch command := by
  cases command with
  | nil => exact fun s h => ⟨h, rfl⟩
  | cons name args =>
    have hexec : Blind noTransaction := fun s h => ⟨h, rfl⟩
    exact blind_dispatchWith hexec (upper name) args

theorem blind_runQueue (queue : List Command) : Blind fun s => s.runQueue queue := by
  induction queue with
  | nil => exact fun s h => ⟨h, rfl⟩
  | cons command rest ih =>
    intro s h
    obtain ⟨h₁, hfirst⟩ := blind_redispatch command s h
    dsimp only at hfirst
    rcases hd : s.redispatch command with ⟨s₁, e | reply⟩ <;> rw [hd] at hfirst
    · exact ⟨h₁, by simp only [runQueue, hfirst, hd]⟩
    · obtain ⟨h₂, hrest⟩ := ih s₁ h₁
      dsimp only at hrest
      refine ⟨h₂, ?_⟩
      simp only [runQueue, hfirst, hd, hrest]
      rcases s₁.runQueue rest with ⟨s₂, e | replies⟩ <;> rfl

theorem blind_exec : Blind exec := by
  intro s h
  have hqueue : (s.past h).conn.queue = s.conn.queue := rfl
  have hstale : (s.past h).conn.stale (s.past h).redis = s.conn.stale s.redis := rfl
  unfold exec
  rw [hqueue]
  cases s.conn.queue with
  | none => exact ⟨h, rfl⟩
  | some queued =>
    dsimp only
    rw [hstale]
    split
    · exact ⟨h ++ [.unwatched s.conn.id], rfl⟩
    · obtain ⟨h', heq⟩ := blind_runQueue queued (s.withQueue none).unwatch
        (h ++ [.unwatched s.conn.id])
      have hrun : ((s.past h).withQueue none).unwatch.runQueue queued =
          (((s.withQueue none).unwatch.runQueue queued).1.past h',
            ((s.withQueue none).unwatch.runQueue queued).2) := heq
      refine ⟨h', ?_⟩
      rw [hrun]
      rcases (s.withQueue none).unwatch.runQueue queued with ⟨s₁, e | replies⟩ <;> rfl

theorem blind_handle (command : Command) : Blind fun s => s.handle command := by
  intro s h
  cases command with
  | nil => exact ⟨h, rfl⟩
  | cons name args =>
    have hqueue : (s.past h).conn.queue = s.conn.queue := rfl
    have hdispatch := blind_dispatchWith blind_exec (upper name) args s h
    unfold handle
    dsimp only
    rw [hqueue]
    cases s.conn.queue with
    | none => exact hdispatch
    | some queue =>
      dsimp only
      split
      · exact hdispatch
      · exact ⟨h, rfl⟩

end Served

end Simloom.Services
