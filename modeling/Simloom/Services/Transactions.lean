import Simloom.Theory.Optimistic
import Simloom.Services.Rereads

/-! Transactions that commit might as well be made in one go.

A client that keeps to the rules of optimistic locking reads, from its first `WATCH` or its
`MULTI` on, only keys that it has watched, watches none of them twice, and leaves what it
writes to the queue (`Connection.Careful`). Then a run of any number of such clients, whatever
the order of their commands, is answered as a run in which every transaction whose `EXEC` goes
through is a piece of its own, from the first `WATCH` to the `EXEC`, and leaves the server in the
same state (`transactions_serial`). -/
namespace Simloom.Services
open Theory

/-! ### Clients of one server -/

/-- A connection, whether it has ended, and what it was answered. -/
structure Client where
  conn : Connection
  ended : Bool
  answers : List (Except Fault Reply)

/-- A command, or the end of the stream. -/
def Client.act (k : Keyspace) (l : Client) : Option Command → Option (Keyspace × Client)
  | none => some (k, {l with ended := true})
  | some command =>
    if l.ended then none
    else
      let done := Served.handle ⟨k.redis, l.conn⟩ command
      some (done.1.redis.keyspace, ⟨done.1.conn, !done.2.isOk, l.answers ++ [done.2]⟩)

theorem Client.act_command {k k' : Keyspace} {l l' : Client} {command : Command}
    (h : l.act k (some command) = some (k', l')) :
    l.ended = false ∧ k' = (Served.handle ⟨k.redis, l.conn⟩ command).1.redis.keyspace ∧
      l' = ⟨(Served.handle ⟨k.redis, l.conn⟩ command).1.conn,
        !(Served.handle ⟨k.redis, l.conn⟩ command).2.isOk,
        l.answers ++ [(Served.handle ⟨k.redis, l.conn⟩ command).2]⟩ := by
  unfold Client.act at h
  cases hended : l.ended with
  | true => simp [hended] at h
  | false =>
    simp only [hended, Bool.false_eq_true, if_false, Option.some.injEq, Prod.mk.injEq] at h
    exact ⟨rfl, h.1.symm, h.2.symm⟩

/-- Careful clients read what their `EXEC` finds. -/
def clients : Optimistic Keyspace Client (Option Command) where
  act k l := l.act k
  idle l := l.conn.idle
  Known k l := l.conn.Remembers k
  Valid k l := l.conn.UpToDate k
  Fits l e := ∀ command, e = some command → l.conn.Careful command
  later := by
    intro k k' l l' e h
    cases e with
    | none => exact (Prod.mk.inj (Option.some.inj h)).1 ▸ le_refl k
    | some command =>
      obtain ⟨_, rfl, _⟩ := Client.act_command h
      exact (Served.moves_handle ⟨k.redis, l.conn⟩ command).later
  known := by
    intro k k' l l' e h hk
    cases e with
    | none =>
      obtain ⟨rfl, rfl⟩ := Prod.mk.inj (Option.some.inj h)
      exact hk
    | some command =>
      obtain ⟨_, rfl, rfl⟩ := Client.act_command h
      exact ⟨(Served.moves_handle ⟨k.redis, l.conn⟩ command).watched hk.watched,
        Served.handle_queued (s := ⟨k.redis, l.conn⟩) command hk.queued⟩
  known_later := fun h hk => ⟨fun key v hv => (hk.watched key v hv).trans (h key).1, hk.queued⟩
  reads := by
    intro k k' l l' e hk hfits h hopen
    cases e with
    | none => exact (Prod.mk.inj (Option.some.inj h)).1.symm
    | some command =>
      obtain ⟨_, rfl, rfl⟩ := Client.act_command h
      exact (Served.reads (s := ⟨k.redis, l.conn⟩) hk (hfits command rfl) hopen).same
  again := by
    intro k k' l l' e hk hfits h hopen hlater hvalid
    cases e with
    | none =>
      obtain ⟨_, rfl⟩ := Prod.mk.inj (Option.some.inj h)
      exact ⟨hvalid, rfl⟩
    | some command =>
      obtain ⟨hended, _, rfl⟩ := Client.act_command h
      have hreads := Served.reads (s := ⟨k.redis, l.conn⟩) hk (hfits command rfl) hopen
      obtain ⟨hup, hkeys, hconn, hreply⟩ := hreads.again k'.redis hlater hvalid
      refine ⟨hup, ?_⟩
      simp only [Client.act, hended, Bool.false_eq_true, if_false, Option.some.injEq]
      rw [hkeys, hconn, hreply]
      rfl

namespace Server

/-! ### The server as its clients see it -/

/-- Who it comes from, and what it is. -/
def Event.parts : Event → Nat × Option Command
  | .receive c command => (c, some command)
  | .hangUp c => (c, none)

def Event.conn (e : Event) : Nat := e.parts.1

def Event.of (x : Nat × Option Command) : Event := x.2.elim (.hangUp x.1) (.receive x.1)

theorem Event.parts_of (x : Nat × Option Command) : (Event.of x).parts = x := by
  obtain ⟨c, e⟩ := x
  cases e <;> rfl

theorem Event.of_parts (e : Event) : Event.of e.parts = e := by cases e <;> rfl

/-- The client keeps to the rules of optimistic locking. -/
def Event.Careful (s : Server) (e : Event) : Prop :=
  ∀ command, e.parts.2 = some command → (s.conns e.conn).Careful command

instance (s : Server) (e : Event) : Decidable (e.Careful s) :=
  decidable_of_iff (e.parts.2.all fun command => decide ((s.conns e.conn).Careful command)) (by
    cases h : e.parts.2 <;> simp [Event.Careful, h])

/-- What a connection is answered on an event. -/
def answer (s : Server) (e : Event) (c : Nat) : List (Except Fault Reply) :=
  if c = e.conn then (e.parts.2.map (s.outcome c)).toList else []

/-- What a connection is answered in a run. -/
def answers (s : Server) : List Event → Nat → List (Except Fault Reply)
  | [], _ => []
  | e :: rest, c => (s.step e).elim [] fun s' => s.answer e c ++ s'.answers rest c

/-- The events that leave their connection idle. -/
def closing (s : Server) : List Event → List Event
  | [] => []
  | e :: rest => (s.step e).elim [] fun s' =>
    if (s'.conns e.conn).idle then e :: s'.closing rest else s'.closing rest

/-- At the end of the run the connection's transaction is one piece. -/
def Uncut (events : List Event) (c : Nat) : Prop :=
  ∃ outer span s, events = outer ++ span ∧ Transition.run step start outer = some s ∧
    (s.conns c).idle = true ∧ ∀ e ∈ span, e.conn = c

def view (s : Server) (answers : Nat → List (Except Fault Reply)) : Keyspace × (Nat → Client) :=
  (s.redis.keyspace, fun c => ⟨s.conns c, decide (c ∈ s.ended), answers c⟩)

theorem step_view (s : Server) (old : Nat → List (Except Fault Reply)) (e : Event) :
    clients.step (s.view old) e.parts =
      (s.step e).map fun s' => s'.view fun c => old c ++ s.answer e c := by
  cases e with
  | hangUp c =>
    simp only [Optimistic.step, clients, view, Event.parts, Client.act, step, Option.map_some]
    refine congrArg some (Prod.ext rfl (funext fun d => ?_))
    by_cases hd : d = c
    · subst hd
      simp [answer, Event.parts]
    · simp [hd, answer, Event.parts, Event.conn]
  | receive c command =>
    simp only [Optimistic.step, clients, view, Event.parts, Client.act, step]
    by_cases hc : c ∈ s.ended
    · simp [hc]
    · obtain ⟨h', heq⟩ := Served.blind_handle command (s.served c) []
      have hpast : Served.handle ⟨s.redis.keyspace.redis, s.conns c⟩ command =
          (((s.served c).handle command).1.past h', ((s.served c).handle command).2) := heq
      simp only [hc, decide_false, Bool.false_eq_true, if_false, Option.map_some]
      rw [hpast]
      refine congrArg some (Prod.ext rfl (funext fun d => ?_))
      by_cases hd : d = c
      · subst hd
        cases hok : ((s.served d).handle command).2.isOk <;>
          simp [after, answer, Event.parts, Event.conn, outcome, hok, hc, Served.past]
      · cases hok : ((s.served c).handle command).2.isOk <;>
          simp [after, answer, Event.parts, Event.conn, hd, hok]

theorem run_view (s : Server) (old : Nat → List (Except Fault Reply)) (events : List Event) :
    Transition.run clients.step (s.view old) (events.map Event.parts) =
      (Transition.run step s events).map fun s' => s'.view fun c => old c ++ s.answers events c := by
  induction events generalizing s old with
  | nil => simp [Transition.run, answers]
  | cons e rest ih =>
    rw [List.map_cons, Transition.run, Transition.run, step_view]
    cases hstep : s.step e with
    | none => rfl
    | some s' =>
      simp only [Option.map_some, Option.bind_some]
      rw [ih]
      simp [answers, hstep, List.append_assoc]

theorem closing_view (s : Server) (old : Nat → List (Except Fault Reply)) (events : List Event) :
    clients.closing (s.view old) (events.map Event.parts) =
      (s.closing events).map Event.parts := by
  induction events generalizing s old with
  | nil => rfl
  | cons e rest ih =>
    rw [List.map_cons, Optimistic.closing, step_view, closing]
    cases hstep : s.step e with
    | none => rfl
    | some s' =>
      have hidle : clients.idle ((s'.view fun c => old c ++ s.answer e c).2 e.parts.1) =
          (s'.conns e.conn).idle := rfl
      simp only [Option.map_some, Option.elim_some, ih, hidle]
      split <;> rfl

theorem along_view {s : Server} {old : Nat → List (Except Fault Reply)} {events : List Event}
    (h : Transition.Along step Event.Careful s events) :
    Transition.Along clients.step clients.Fit (s.view old) (events.map Event.parts) := by
  induction events generalizing s old with
  | nil => trivial
  | cons e rest ih =>
    refine ⟨h.1, fun v hv => ?_⟩
    rw [step_view, Option.map_eq_some_iff] at hv
    obtain ⟨s', hs', rfl⟩ := hv
    exact ih (h.2 s' hs')

theorem idle_start (c : Nat) : (start.conns c).idle = true := rfl

theorem known_start (old : Nat → List (Except Fault Reply)) : clients.AllKnown (start.view old) :=
  fun _ => ⟨fun _ _ h => absurd h (by simp [view, start, Connection.new]),
    fun _ h => absurd h (by simp [view, start, Connection.new])⟩

/-- An `EXEC` that goes through ends a transaction that is up to date. -/
theorem commits_view {s : Server} {old : Nat → List (Except Fault Reply)} {c : Nat} {name : Bytes}
    {args : List Bytes} {queue : List Command} (hknown : clients.AllKnown (s.view old))
    (hexec : verb (upper name) = .exec) (hopen : (s.conns c).queue = some queue)
    (hnil : s.outcome c (name :: args) ≠ .ok .nil) (hended : c ∉ s.ended) :
    clients.Commits (s.view old) (c, some (name :: args)) := by
  have hhandle : (s.served c).handle (name :: args) = (s.served c).exec := by
    rw [Served.handle_now _ args (.inr (by rw [hexec]; rfl))]
    simp only [Served.dispatch, Served.dispatchWith, hexec]
  refine ⟨?_, ?_, ?_⟩
  · refine Bool.eq_false_iff.mpr fun hidle => ?_
    have hnone : (s.conns c).queue = none := (Connection.idle_iff.mp hidle).2
    rw [hnone] at hopen
    cases hopen
  · refine (Connection.upToDate_iff (s.conns c) s.redis).mpr ?_
    refine Bool.eq_false_iff.mpr fun hstale => hnil ?_
    have hqueue : (s.served c).conn.queue = some queue := hopen
    have hstale' : (s.served c).conn.stale (s.served c).redis = true := hstale
    rw [outcome, hhandle, Served.exec, hqueue]
    simp only [hstale', if_true]
  · have hstep : s.step (.receive c (name :: args)) = some (s.after c (name :: args)) :=
      if_neg hended
    have hview := step_view s old (.receive c (name :: args))
    rw [hstep] at hview
    refine ⟨_, hview, ?_⟩
    show ((s.after c (name :: args)).conns c).idle = true
    have hidle := Served.exec_idle (s := s.served c) hopen ((hknown c).queued queue hopen)
    simp only [after, hhandle, Function.update_self]
    exact hidle

/-- The second run comes to the same as the first, and each transaction whose `EXEC` goes through
is one piece there. -/
structure Serial (events events' : List Event) (s s' : Server) : Prop where
  run : Transition.run step start events' = some s'
  keyspace : s'.redis.keyspace = s.redis.keyspace
  conns : s'.conns = s.conns
  ended : ∀ c, c ∈ s'.ended ↔ c ∈ s.ended
  sent : ∀ c, (events'.filter fun e => e.conn = c) = events.filter fun e => e.conn = c
  answers : ∀ c, start.answers events' c = start.answers events c
  closing : start.closing events' = start.closing events
  uncut : ∀ before c name args later m queue, events' = before ++ .receive c (name :: args) :: later →
    Transition.run step start before = some m → verb (upper name) = .exec →
    (m.conns c).queue = some queue → m.outcome c (name :: args) ≠ .ok .nil → Uncut before c

/-- **Transactions that commit might as well be made in one go.** A run of careful clients comes
to the same as one in which each transaction whose `EXEC` goes through is one piece: every
connection sends the same there and is answered the same, transactions end in the same order,
and the server is left in the same state. -/
theorem transactions_serial {events : List Event} {s : Server}
    (hrun : Transition.run step start events = some s)
    (hcareful : Transition.Along step Event.Careful start events) :
    ∃ events' s', Serial events events' s s' := by
  have hclients : Transition.run clients.step (start.view fun _ => []) (events.map Event.parts) =
      some (s.view fun c => [] ++ start.answers events c) := by
    rw [run_view, hrun]
    rfl
  obtain ⟨xs, hxs, _, hsame, hclosing, hserial⟩ := Optimistic.serial_run hclients
    (along_view hcareful) (known_start _) idle_start
  have hparts : xs = (xs.map Event.of).map Event.parts := by
    rw [List.map_map]
    exact (List.map_id'' Event.parts_of xs).symm
  generalize xs.map Event.of = events' at hparts
  subst hparts
  rw [run_view, Option.map_eq_some_iff] at hxs
  obtain ⟨s', hs', hview⟩ := hxs
  have hclient : ∀ c, (⟨s'.conns c, decide (c ∈ s'.ended), [] ++ start.answers events' c⟩ : Client) =
      ⟨s.conns c, decide (c ∈ s.ended), [] ++ start.answers events c⟩ :=
    fun c => congrFun (congrArg Prod.snd hview) c
  have hinj : Function.Injective Event.parts := Function.LeftInverse.injective Event.of_parts
  refine ⟨events', s', hs', congrArg Prod.fst hview, funext fun c => (Client.mk.inj (hclient c)).1,
    fun c => decide_eq_decide.mp (Client.mk.inj (hclient c)).2.1, fun c => ?_,
    fun c => (Client.mk.inj (hclient c)).2.2, ?_, ?_⟩
  · have hc := hsame c
    rw [List.filter_map, List.filter_map] at hc
    exact hinj.list_map hc
  · rw [closing_view, closing_view] at hclosing
    exact hinj.list_map hclosing
  · rintro before c name args later m queue rfl hm hexec hopen hnil
    obtain ⟨m', hm', hstep⟩ := Transition.run_append.mp hs'
    rw [hm] at hm'
    obtain rfl := Option.some.inj hm'
    obtain ⟨_, hlast, _⟩ := Transition.run_cons.mp hstep
    have hended : c ∉ m.ended := by
      intro hmem
      simp [step, hmem] at hlast
    have hmview : Transition.run clients.step (start.view fun _ => []) (before.map Event.parts) =
        some (m.view fun c => [] ++ start.answers before c) := by
      rw [run_view, hm]
      rfl
    have hknown := Optimistic.run_known hmview (known_start _)
    have hcommits := commits_view hknown hexec hopen hnil hended
    obtain ⟨outer, span, v, heq, hv, hidle, hspan⟩ :=
      hserial _ _ (later.map Event.parts) _ (by rw [List.map_append, List.map_cons]; rfl) hmview
        hcommits
    obtain ⟨as, bs, rfl, rfl, rfl⟩ := List.map_eq_append_iff.mp heq
    rw [run_view, Option.map_eq_some_iff] at hv
    obtain ⟨v', hv', rfl⟩ := hv
    exact ⟨as, bs, v', rfl, hv', hidle, fun e he => hspan e.parts (List.mem_map_of_mem he)⟩

/-- Two clients take turns with transactions on different keys. -/
def turns : List Event :=
  [.receive 0 [ascii "WATCH", ascii "a"], .receive 1 [ascii "WATCH", ascii "b"],
    .receive 0 [ascii "GET", ascii "a"], .receive 0 [ascii "MULTI"],
    .receive 1 [ascii "MULTI"], .receive 1 [ascii "SET", ascii "b", ascii "1"],
    .receive 0 [ascii "INCR", ascii "a"], .receive 1 [ascii "EXEC"], .receive 0 [ascii "EXEC"]]

theorem transactions_serial_turns : ∃ s, Transition.run step start turns = some s ∧
    ∃ events' s', Serial turns events' s s' := by
  have hrun : (Transition.run step start turns).isSome = true := by decide +kernel
  obtain ⟨s, hs⟩ := Option.isSome_iff_exists.mp hrun
  exact ⟨s, hs, transactions_serial hs (by decide +kernel)⟩

end Server
end Simloom.Services
