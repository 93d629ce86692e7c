import Simloom.Services.Redis

/-! Optimistic locking.

A connection's `watched` holds, for each key, the version at its latest `WATCH` of the
key, and a key's version counts its modifications. So `EXEC` aborts exactly when a key
was modified since its latest `WATCH`. A key that was modified between two of them is
not noticed any more. -/
namespace Simloom.Services
open Theory

/-! ### The history of a key -/

/-- The key was modified after a `WATCH` that the connection has not let go. -/
def ModifiedSinceWatch (h : List Occurrence) (c : Nat) (key : Bytes) : Prop :=
  ∃ before later, h = before ++ .watched c key :: later ∧ .unwatched c ∉ later ∧
    .modified key ∈ later

/-- The latest `WATCH` of a key, if the connection has not let it go. -/
def LatestWatch (h : List Occurrence) (c : Nat) (key : Bytes) (before later : List Occurrence) :
    Prop :=
  h = before ++ .watched c key :: later ∧ .unwatched c ∉ later ∧ .watched c key ∉ later

/-- The key was modified after its latest `WATCH`. -/
def ModifiedSinceLatest (h : List Occurrence) (c : Nat) (key : Bytes) : Prop :=
  ∃ before later, LatestWatch h c key before later ∧ .modified key ∈ later

theorem ModifiedSinceLatest.since {h : List Occurrence} {c : Nat} {key : Bytes}
    (hm : ModifiedSinceLatest h c key) : ModifiedSinceWatch h c key := by
  obtain ⟨before, later, ⟨heq, hkept, -⟩, hmod⟩ := hm
  exact ⟨before, later, heq, hkept, hmod⟩

/-- One more occurrence is a new latest `WATCH`, or leaves the one there was. -/
theorem latestWatch_append {h : List Occurrence} {o : Occurrence} {c : Nat} {key : Bytes}
    {before later : List Occurrence} :
    LatestWatch (h ++ [o]) c key before later ↔
      (o = .watched c key ∧ before = h ∧ later = []) ∨
      (o ≠ .watched c key ∧ o ≠ .unwatched c ∧
        ∃ rest, later = rest ++ [o] ∧ LatestWatch h c key before rest) := by
  constructor
  · rintro ⟨heq, hkept, hlatest⟩
    rcases List.eq_nil_or_concat later with rfl | ⟨rest, x, rfl⟩
    · obtain ⟨hh, ho⟩ := List.append_inj' heq rfl
      exact .inl ⟨(List.cons.inj ho).1, hh.symm, rfl⟩
    · rw [List.concat_eq_append] at heq hkept hlatest ⊢
      rw [← List.cons_append, ← List.append_assoc] at heq
      obtain ⟨hh, ho⟩ := List.append_inj' heq rfl
      cases (List.cons.inj ho).1
      simp only [List.mem_append, List.mem_singleton, not_or] at hkept hlatest
      exact .inr ⟨Ne.symm hlatest.2, Ne.symm hkept.2, rest, rfl, hh, hkept.1, hlatest.1⟩
  · rintro (⟨rfl, rfl, rfl⟩ | ⟨hne, hne', rest, rfl, rfl, hkept, hlatest⟩)
    · exact ⟨rfl, List.not_mem_nil, List.not_mem_nil⟩
    · refine ⟨by simp, ?_, ?_⟩
      · simpa [hkept] using hne'.symm
      · simpa [hlatest] using hne.symm

/-! ### What versions and watched keys record -/

/-- The version of each key counts its modifications. -/
def SimRedis.Counts (r : SimRedis) : Prop :=
  ∀ key, r.versionOf key = r.history.count (.modified key)

/-- What a connection has watched, at which version. -/
def Connection.Recorded (c : Connection) (h : List Occurrence) : Prop :=
  ∀ key v, c.watched.get? key = some v ↔
    ∃ before later, LatestWatch h c.id key before later ∧ v = before.count (.modified key)

/-- It is none of the connection's business to watch or let go. -/
def Occurrence.Foreign (c : Nat) (o : Occurrence) : Prop :=
  o ≠ .unwatched c ∧ ∀ key, o ≠ .watched c key

theorem Connection.Recorded.foreign {c : Connection} {h : List Occurrence} {o : Occurrence}
    (hc : c.Recorded h) (ho : o.Foreign c.id) : c.Recorded (h ++ [o]) := by
  intro key v
  rw [hc key v]
  simp only [latestWatch_append]
  constructor
  · rintro ⟨before, later, hlatest, hv⟩
    exact ⟨before, later ++ [o], .inr ⟨ho.2 key, ho.1, later, rfl, hlatest⟩, hv⟩
  · rintro ⟨before, _, ⟨heq, _, _⟩ | ⟨_, _, later, _, hlatest⟩, hv⟩
    · exact absurd heq (ho.2 key)
    · exact ⟨before, later, hlatest, hv⟩

theorem Connection.Recorded.foreigns {c : Connection} {h more : List Occurrence}
    (hc : c.Recorded h) (hmore : ∀ o ∈ more, o.Foreign c.id) : c.Recorded (h ++ more) := by
  induction more generalizing h with
  | nil => rwa [List.append_nil]
  | cons o rest ih =>
    rw [List.append_cons]
    exact ih (hc.foreign (hmore o List.mem_cons_self)) fun x hx =>
      hmore x (List.mem_cons_of_mem _ hx)

theorem Connection.Recorded.watch {c : Connection} {h : List Occurrence} (hc : c.Recorded h)
    (key : Bytes) :
    ({c with watched := c.watched.set key (h.count (.modified key))} : Connection).Recorded
      (h ++ [.watched c.id key]) := by
  intro k v
  simp only [Dict.get?_set, latestWatch_append]
  by_cases hk : k = key
  · subst hk
    simp [eq_comm]
  · simp [hk, Ne.symm hk, hc k v]

theorem Connection.recorded_unwatch (c : Connection) (h : List Occurrence) :
    ({c with watched := .empty} : Connection).Recorded (h ++ [.unwatched c.id]) := by
  intro key v
  simp [latestWatch_append]

theorem SimRedis.Counts.note {r : SimRedis} (h : r.Counts) {o : Occurrence}
    (ho : ∀ key, o ≠ .modified key) : (r.note o).Counts := by
  intro key
  show r.versionOf key = (r.history ++ [o]).count _
  rw [h key, List.count_append, List.count_singleton]
  simp [ho key]

/-- A modification with its bump. -/
theorem SimRedis.Counts.bump {r r' : SimRedis} (h : r.Counts) (key : Bytes)
    (hversion : r'.version = r.version) (hhistory : r'.history = r.history ++ [.modified key]) :
    (r'.bump key).Counts := by
  intro k
  show ((r'.version.set key (r'.versionOf key + 1)).get? k).getD 0 = r'.history.count _
  rw [Dict.get?_set, hhistory, List.count_append, List.count_singleton]
  have hold : r'.versionOf k = r.history.count (.modified k) := by
    rw [← h k, SimRedis.versionOf, SimRedis.versionOf, hversion]
  by_cases hk : k = key
  · subst hk
    simp [hold]
  · simpa [hk, Ne.symm hk, SimRedis.versionOf] using hold

/-! ### Each command -/

namespace Served

/-- Versions and watched keys are what the history says. -/
structure Sound (s : Served) : Prop where
  counts : s.redis.Counts
  recorded : s.conn.Recorded s.redis.history

/-- A command keeps the records, and what it adds to the history is foreign to every
other connection. -/
structure Keeps (s s' : Served) : Prop where
  id : s'.conn.id = s.conn.id
  grows : ∃ more, s'.redis.history = s.redis.history ++ more ∧
    ∀ o ∈ more, ∀ c, c ≠ s.conn.id → o.Foreign c
  sound : s.Sound → s'.Sound

theorem Keeps.refl (s : Served) : s.Keeps s :=
  ⟨rfl, ⟨[], (List.append_nil _).symm, fun _ h => nomatch h⟩, fun hs => hs⟩

theorem Keeps.trans {s s' s'' : Served} (h : s.Keeps s') (h' : s'.Keeps s'') : s.Keeps s'' where
  id := h'.id.trans h.id
  grows := by
    obtain ⟨more, heq, hforeign⟩ := h.grows
    obtain ⟨more', heq', hforeign'⟩ := h'.grows
    refine ⟨more ++ more', by rw [heq', heq, List.append_assoc], fun o ho c hc => ?_⟩
    rcases List.mem_append.mp ho with ho | ho
    · exact hforeign o ho c hc
    · exact hforeign' o ho c (h.id ▸ hc)
  sound := fun hs => h'.sound (h.sound hs)

theorem keeps_withQueue (s : Served) (queue : Option (List Command)) :
    s.Keeps (s.withQueue queue) :=
  ⟨rfl, ⟨[], (List.append_nil _).symm, fun _ h => nomatch h⟩, fun hs => ⟨hs.counts, hs.recorded⟩⟩

theorem foreign_modified (c : Nat) (key : Bytes) : (Occurrence.modified key).Foreign c :=
  ⟨fun h => (nomatch h), fun _ h => (nomatch h)⟩

/-- A modification with its bump. -/
theorem keeps_bump (s : Served) (key : Bytes) {r : SimRedis} (hversion : r.version = s.redis.version)
    (hhistory : r.history = s.redis.history ++ [.modified key]) :
    s.Keeps (s.withRedis (r.bump key)) where
  id := rfl
  grows := by
    refine ⟨[.modified key], hhistory, fun o ho c _ => ?_⟩
    rw [List.mem_singleton.mp ho]
    exact foreign_modified c key
  sound := by
    intro hs
    refine ⟨hs.counts.bump key hversion hhistory, ?_⟩
    show s.conn.Recorded r.history
    rw [hhistory]
    exact hs.recorded.foreign (foreign_modified _ key)

theorem keeps_delete (s : Served) (keys : List Bytes) :
    s.Keeps (s.withRedis (s.redis.delete keys).1) := by
  induction keys generalizing s with
  | nil => exact .refl s
  | cons key rest ih =>
    rw [SimRedis.delete]
    split
    · exact (s.keeps_bump key (r := s.redis.remove key) rfl rfl).trans (ih _)
    · exact ih s

theorem keeps_watchKey (s : Served) (key : Bytes) : s.Keeps (s.watchKey key) where
  id := rfl
  grows := by
    refine ⟨[.watched s.conn.id key], rfl, fun o ho c hc => ?_⟩
    rw [List.mem_singleton.mp ho]
    exact ⟨fun h => (nomatch h), fun _ h => hc (Occurrence.watched.inj h).1.symm⟩
  sound := by
    intro hs
    refine ⟨hs.counts.note fun _ h => (nomatch h), ?_⟩
    show Connection.Recorded {s.conn with watched := s.conn.watched.set key (s.redis.versionOf key)} _
    rw [hs.counts key]
    exact hs.recorded.watch key

theorem keeps_watch (s : Served) (keys : List Bytes) : s.Keeps (keys.foldl watchKey s) := by
  induction keys generalizing s with
  | nil => exact .refl s
  | cons key rest ih => exact (s.keeps_watchKey key).trans (ih _)

theorem keeps_unwatch (s : Served) : s.Keeps s.unwatch where
  id := rfl
  grows := by
    refine ⟨[.unwatched s.conn.id], rfl, fun o ho c hc => ?_⟩
    rw [List.mem_singleton.mp ho]
    exact ⟨fun h => hc (Occurrence.unwatched.inj h).symm, fun _ h => nomatch h⟩
  sound := fun hs => ⟨hs.counts.note fun _ h => (nomatch h), s.conn.recorded_unwatch _⟩

theorem keeps_dispatchWith {exec : Served → Outcome} (s : Served) (name : Bytes)
    (args : List Bytes) (hexec : s.Keeps (exec s).1) : s.Keeps (s.dispatchWith exec name args).1 := by
  unfold dispatchWith
  cases verb name with
  | set =>
    match args with
    | key :: value :: _ => exact s.keeps_bump key rfl rfl
    | [_] => exact .refl s
    | [] => exact .refl s
  | get => cases args <;> exact .refl s
  | del => exact s.keeps_delete args
  | count down byArgument =>
    dsimp only
    cases s.redis.counted down byArgument args with
    | ok done => exact s.keeps_bump done.1 rfl rfl
    | error e => exact .refl s
  | watch => exact s.keeps_watch args
  | unwatch => exact s.keeps_unwatch
  | multi => exact s.keeps_withQueue _
  | discard => exact (s.keeps_withQueue none).trans (keeps_unwatch _)
  | exec => exact hexec
  | hello | handshake | ping | «exists» | unknown => exact .refl s

theorem keeps_redispatch (s : Served) (command : Command) : s.Keeps (s.redispatch command).1 := by
  cases command with
  | nil => exact .refl s
  | cons name args => exact s.keeps_dispatchWith (upper name) args (.refl s)

theorem keeps_runQueue (s : Served) (queue : List Command) : s.Keeps (s.runQueue queue).1 := by
  induction queue generalizing s with
  | nil => exact .refl s
  | cons command rest ih =>
    have hfirst := s.keeps_redispatch command
    rw [runQueue]
    cases hd : s.redispatch command with
    | mk s₁ result =>
      rw [hd] at hfirst
      cases result with
      | error e => exact hfirst
      | ok reply =>
        have hrest := ih s₁
        dsimp only
        cases hr : s₁.runQueue rest with
        | mk s₂ replies =>
          rw [hr] at hrest
          cases replies <;> exact hfirst.trans hrest

theorem keeps_exec (s : Served) : s.Keeps s.exec.1 := by
  unfold exec
  cases s.conn.queue with
  | none => exact .refl s
  | some queued =>
    have hgo : s.Keeps (s.withQueue none).unwatch := (s.keeps_withQueue none).trans (keeps_unwatch _)
    dsimp only
    split
    · exact hgo
    · have hrun := (s.withQueue none).unwatch.keeps_runQueue queued
      cases hr : (s.withQueue none).unwatch.runQueue queued with
      | mk s₁ replies =>
        rw [hr] at hrun
        cases replies <;> exact hgo.trans hrun

theorem keeps_handle (s : Served) (command : Command) : s.Keeps (s.handle command).1 := by
  unfold handle
  cases command with
  | nil => exact .refl s
  | cons name args =>
    have hdispatch := s.keeps_dispatchWith (upper name) args s.keeps_exec
    cases s.conn.queue with
    | none => exact hdispatch
    | some queue =>
      dsimp only
      split
      · exact hdispatch
      · exact s.keeps_withQueue _

end Served

/-! ### Every run -/

/-- Versions count, and every connection's watched keys are what the history says. -/
structure Server.Sound (s : Server) : Prop where
  counts : s.redis.Counts
  id : ∀ c, (s.conns c).id = c
  recorded : ∀ c, (s.conns c).Recorded s.redis.history

theorem Server.sound_start : Server.start.Sound where
  counts := fun _ => rfl
  id := fun _ => rfl
  recorded := by
    intro c key v
    refine ⟨fun h => (nomatch h), fun ⟨before, later, ⟨heq, _⟩, _⟩ => ?_⟩
    exact absurd (congrArg List.length heq) (by simp [Server.start, SimRedis.new])

theorem Server.Sound.after {s : Server} (h : s.Sound) (c : Nat) (command : Command) :
    (s.after c command).Sound := by
  have hkeep := (s.served c).keeps_handle command
  have hserved := hkeep.sound ⟨h.counts, h.recorded c⟩
  refine ⟨hserved.counts, fun c' => ?_, fun c' => ?_⟩
  · by_cases hc : c' = c
    · subst hc
      simpa [Server.after, Server.served] using hkeep.id.trans (h.id c')
    · simpa [Server.after, hc] using h.id c'
  · by_cases hc : c' = c
    · subst hc
      simpa [Server.after] using hserved.recorded
    · obtain ⟨more, heq, hforeign⟩ := hkeep.grows
      have hmore : ∀ o ∈ more, o.Foreign (s.conns c').id := by
        intro o ho
        refine hforeign o ho _ fun hid => hc ?_
        rw [← h.id c', hid]
        exact h.id c
      have hold := (h.recorded c').foreigns hmore
      show (Function.update s.conns c _ c').Recorded ((s.served c).handle command).1.redis.history
      rw [heq, Function.update_of_ne hc]
      exact hold

theorem Server.sound_step : Transition.Keeps Server.step (fun _ _ => True) Server.Sound := by
  intro s event s' _ h hstep
  cases event with
  | receive c command =>
    simp only [Server.step, Option.ite_none_left_eq_some, Option.some.injEq] at hstep
    exact hstep.2 ▸ h.after c command
  | hangUp c =>
    rw [← Option.some.inj hstep]
    exact {h with}

/-- The lock is broken exactly when a key was modified since its latest `WATCH`. -/
theorem Server.Sound.stale_iff {s : Server} (h : s.Sound) (c : Nat) :
    (s.conns c).stale s.redis = true ↔ ∃ key, ModifiedSinceLatest s.redis.history c key := by
  have hrec := h.recorded c
  simp only [Connection.stale, List.any_eq_true, decide_eq_true_eq, Prod.exists, Dict.mem_entries]
  refine exists_congr fun key => ?_
  constructor
  · rintro ⟨v, hv, hne⟩
    obtain ⟨before, later, hlatest, rfl⟩ := (hrec key v).mp hv
    rw [h.id c] at hlatest
    refine ⟨before, later, hlatest, ?_⟩
    rw [h.counts key, hlatest.1, List.count_append, List.count_cons] at hne
    refine List.count_pos_iff.mp (Nat.pos_of_ne_zero fun h0 => hne ?_)
    simp [h0]
  · rintro ⟨before, later, hlatest, hmod⟩
    refine ⟨_, (hrec key _).mpr ⟨before, later, (h.id c).symm ▸ hlatest, rfl⟩, ?_⟩
    have hpos := List.count_pos_iff.mpr hmod
    rw [h.counts key, hlatest.1, List.count_append, List.count_cons]
    omega

/-- With an open transaction `EXEC` is answered nil when the lock is broken. -/
theorem Server.exec_nil_iff (s : Server) {c : Nat} {name : Bytes} {args : List Bytes}
    {queue : List Command} (hexec : verb (upper name) = .exec)
    (hopen : (s.conns c).queue = some queue) :
    s.outcome c (name :: args) = .ok .nil ↔ (s.conns c).stale s.redis = true := by
  have hqueue : (s.served c).conn.queue = some queue := hopen
  have hhandle : (s.served c).handle (name :: args) = (s.served c).exec := by
    simp [Served.handle, Served.dispatch, Served.dispatchWith, hqueue, hexec, Verb.immediate]
  rw [Server.outcome, hhandle, Served.exec, hqueue]
  dsimp only
  split
  next hstale => exact ⟨fun _ => hstale, fun _ => rfl⟩
  next hstale =>
    refine ⟨fun hnil => ?_, fun h => absurd h hstale⟩
    cases hr : ((s.served c).withQueue none).unwatch.runQueue queue with
    | mk s₁ replies =>
      rw [hr] at hnil
      cases replies with
      | error e => cases hnil
      | ok replies => cases hnil

/-- `EXEC` on an open transaction is answered nil if and only if a watched key was modified
since it was first watched, exactly where this follows from the latest `WATCH` of each key. -/
theorem Server.exec_exact_iff {events : List Server.Event} {s : Server}
    (hrun : Transition.run Server.step Server.start events = some s) {c : Nat} {name : Bytes}
    {args : List Bytes} {queue : List Command} (hexec : verb (upper name) = .exec)
    (hopen : (s.conns c).queue = some queue) :
    (s.outcome c (name :: args) = .ok .nil ↔ ∃ key, ModifiedSinceWatch s.redis.history c key) ↔
      ((∃ key, ModifiedSinceLatest s.redis.history c key) ∨
        ∀ key, ¬ ModifiedSinceWatch s.redis.history c key) := by
  have hsound : s.Sound :=
    Server.sound_step.run (Transition.along_of_forall (fun _ _ _ => trivial) _) Server.sound_start hrun
  rw [s.exec_nil_iff hexec hopen, hsound.stale_iff c]
  constructor
  · intro h
    by_cases hmod : ∃ key, ModifiedSinceWatch s.redis.history c key
    · exact .inl (h.mpr hmod)
    · exact .inr (not_exists.mp hmod)
  · rintro (hlatest | hnone)
    · exact ⟨fun _ => hlatest.imp fun _ hm => hm.since, fun _ => hlatest⟩
    · exact ⟨fun ⟨key, hm⟩ => absurd hm.since (hnone key), fun ⟨key, hm⟩ => absurd hm (hnone key)⟩

/-- Connection 1 sets a key that connection 0 has watched and, it may be, watches again
before it opens a transaction. -/
def contended (again : Bool) : List Server.Event :=
  [.receive 0 [ascii "WATCH", ascii "k"], .receive 1 [ascii "SET", ascii "k", ascii "9"]] ++
    (if again then [.receive 0 [ascii "WATCH", ascii "k"]] else []) ++
    [.receive 0 [ascii "MULTI"]]

theorem exec_exact_contended : ∃ s, Transition.run Server.step Server.start (contended false) = some s ∧
    ((s.outcome 0 [ascii "EXEC"] = .ok .nil ↔
        ∃ key, ModifiedSinceWatch s.redis.history 0 key) ↔
      ((∃ key, ModifiedSinceLatest s.redis.history 0 key) ∨
        ∀ key, ¬ ModifiedSinceWatch s.redis.history 0 key)) := by
  have hrun : (Transition.run Server.step Server.start (contended false)).any
      fun s => decide ((s.conns 0).queue = some []) := by decide +kernel
  obtain ⟨s, hs, hopen⟩ := Option.any_eq_true _ _ |>.mp hrun
  exact ⟨s, hs, Server.exec_exact_iff hs (by decide +kernel) (of_decide_eq_true hopen)⟩

/-- The second `WATCH` hides the modification: the transaction goes through. -/
theorem watch_again_commits : ∃ s, Transition.run Server.step Server.start (contended true) = some s ∧
    (s.conns 0).queue = some [] ∧ ModifiedSinceWatch s.redis.history 0 (ascii "k") ∧
    s.outcome 0 [ascii "EXEC"] ≠ .ok .nil := by
  have hrun : (Transition.run Server.step Server.start (contended true)).any
      fun s => decide ((s.conns 0).queue = some []) && !(s.conns 0).stale s.redis &&
        decide (s.redis.history =
          [.watched 0 (ascii "k"), .modified (ascii "k"), .watched 0 (ascii "k")]) := by
    decide +kernel
  obtain ⟨s, hs, hall⟩ := Option.any_eq_true _ _ |>.mp hrun
  simp only [Bool.and_eq_true, decide_eq_true_eq, Bool.not_eq_true'] at hall
  obtain ⟨⟨hopen, hstale⟩, hhistory⟩ := hall
  refine ⟨s, hs, hopen, ⟨[], [.modified (ascii "k"), .watched 0 (ascii "k")], hhistory, ?_, ?_⟩, ?_⟩
  · simp
  · exact List.mem_cons_self
  · rw [Ne, s.exec_nil_iff (by decide +kernel) hopen, hstale]
    exact Bool.false_ne_true

end Simloom.Services
