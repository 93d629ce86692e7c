import Simloom.Services.Redis

/-! What becomes of queued commands.

They stay queued until `EXEC` runs all of them, or `EXEC` or `DISCARD` drops all of them
(`Kept`). Two commands break this: an `EXEC` whose queue raises has run the first part of
it and answers nothing, and a `MULTI` inside a transaction drops what was queued. Without
them it holds of every command on every run (`kept_iff`). -/
namespace Simloom.Services
open Theory

/-! ### The promise -/

/-- What a command asks for. -/
def Command.verb : Command → Verb
  | [] => .unknown
  | name :: _ => Services.verb (upper name)

def queuedReply : Reply := .simple (ascii "QUEUED")

/-- The commands are run one after another, each once and each with a reply. -/
inductive Served.Runs : Served → List Command → List Reply → Served → Prop where
  | done {s} : Runs s [] [] s
  | next {s s' s'' command reply rest replies} (first : s.redispatch command = (s', .ok reply))
      (others : Runs s' rest replies s'') : Runs s (command :: rest) (reply :: replies) s''

namespace Server

/-- The commands that a connection was told are queued and that wait for `EXEC`. -/
def pending (s : Server) (c : Nat) : List Command := (s.conns c).queue.getD []

/-- A connection that has left its transaction. -/
def released (s : Server) (c : Nat) : Served := ((s.served c).withQueue none).unwatch

/-- What a command of a connection does to queued commands, its own and the others'. -/
structure Kept (s : Server) (c : Nat) (command : Command) : Prop where
  others : ∀ c' ≠ c, (s.after c command).pending c' = s.pending c'
  queued : s.outcome c command = .ok queuedReply →
    (s.after c command).pending c = s.pending c ++ [command] ∧ (s.after c command).redis = s.redis
  /-- All are dropped and nothing is changed, or all are run, in order and in one go. -/
  exec : command.verb = .exec → (s.conns c).queue ≠ none →
    (s.after c command).pending c = [] ∧
      ((s.outcome c command = .ok .nil ∧ (s.after c command).redis.store = s.redis.store) ∨
        ∃ replies done, (s.released c).Runs (s.pending c) replies done ∧
          s.outcome c command = .ok (.array (some replies)) ∧
          (s.after c command).redis = done.redis)
  discard : command.verb = .discard →
    (s.after c command).pending c = [] ∧ (s.after c command).redis.store = s.redis.store
  otherwise : s.outcome c command ≠ .ok queuedReply → command.verb ≠ .exec →
    command.verb ≠ .discard → (s.after c command).pending c = s.pending c

end Server

/-! ### Where it is kept -/

/-- The arguments that a command needs, and for the `INCR` family a number to count from. -/
def SimRedis.AcceptsArgs (r : SimRedis) (args : List Bytes) : Verb → Prop
  | .set => 2 ≤ args.length
  | .get => 1 ≤ args.length
  | .count down byArgument => (r.counted down byArgument args).isOk
  | _ => True

def SimRedis.Accepts (r : SimRedis) (command : Command) : Prop :=
  command ≠ [] ∧ r.AcceptsArgs command.tail command.verb

/-- Each command is acceptable to the store that the commands before it leave. -/
def Served.AcceptsAll (s : Served) : List Command → Prop
  | [] => True
  | command :: rest => s.redis.Accepts command ∧ AcceptsAll (s.redispatch command).1 rest

/-- `MULTI` comes when nothing is queued, and `EXEC`, unless it is answered nil, when each
queued command is acceptable. -/
def Server.Orderly (s : Server) (c : Nat) (command : Command) : Prop :=
  match command.verb with
  | .multi => s.pending c = []
  | .exec => (s.conns c).stale s.redis = true ∨ (s.released c).AcceptsAll (s.pending c)
  | _ => True

instance (r : SimRedis) (args : List Bytes) : (v : Verb) → Decidable (r.AcceptsArgs args v)
  | .set => inferInstanceAs (Decidable (2 ≤ args.length))
  | .get => inferInstanceAs (Decidable (1 ≤ args.length))
  | .count down byArgument =>
    inferInstanceAs (Decidable ((r.counted down byArgument args).isOk = true))
  | .hello | .handshake | .ping | .del | .exists | .watch | .unwatch | .multi | .discard | .exec
  | .unknown => isTrue trivial

instance (r : SimRedis) (command : Command) : Decidable (r.Accepts command) :=
  inferInstanceAs (Decidable (_ ∧ _))

instance acceptsAllDecidable : (s : Served) → (queue : List Command) → Decidable (s.AcceptsAll queue)
  | _, [] => isTrue trivial
  | s, command :: rest =>
    have := acceptsAllDecidable (s.redispatch command).1 rest
    inferInstanceAs (Decidable (_ ∧ _))

namespace Served

theorem isOk_dispatchWith (s : Served) (name : Bytes) (args : List Bytes) :
    (s.dispatchWith noTransaction name args).2.isOk ↔ s.redis.AcceptsArgs args (verb name) := by
  unfold dispatchWith
  cases verb name with
  | set =>
    rcases args with _ | ⟨key, _ | ⟨value, rest⟩⟩ <;>
      simp [SimRedis.AcceptsArgs, Except.isOk, Except.toBool]
  | get => cases args <;> simp [SimRedis.AcceptsArgs, Except.isOk, Except.toBool]
  | count down byArgument =>
    dsimp only [SimRedis.AcceptsArgs]
    cases s.redis.counted down byArgument args <;> exact Iff.rfl
  | hello | handshake | ping | del | «exists» | watch | unwatch | multi | discard | exec | unknown =>
    exact ⟨fun _ => trivial, fun _ => rfl⟩

theorem isOk_redispatch (s : Served) (command : Command) :
    (s.redispatch command).2.isOk ↔ s.redis.Accepts command := by
  cases command with
  | nil => exact ⟨fun h => (nomatch h), fun h => absurd rfl h.1⟩
  | cons name args =>
    rw [redispatch, isOk_dispatchWith]
    exact ⟨fun h => ⟨List.cons_ne_nil _ _, h⟩, And.right⟩

/-- A queue is answered in full where each command is acceptable. -/
theorem runQueue_spec (s : Served) (queue : List Command) :
    (∃ replies, (s.runQueue queue).2 = .ok replies ∧ s.Runs queue replies (s.runQueue queue).1) ∧
        s.AcceptsAll queue ∨
      (∃ e, (s.runQueue queue).2 = .error e) ∧ ¬ s.AcceptsAll queue := by
  induction queue generalizing s with
  | nil => exact .inl ⟨⟨[], rfl, .done⟩, trivial⟩
  | cons command rest ih =>
    have haccept := s.isOk_redispatch command
    rw [runQueue, AcceptsAll]
    cases hd : s.redispatch command with
    | mk s₁ result =>
      rw [hd] at haccept
      cases result with
      | error e => exact .inr ⟨⟨e, rfl⟩, fun h => nomatch haccept.mpr h.1⟩
      | ok reply =>
        dsimp only
        rcases ih s₁ with ⟨⟨replies, hok, hruns⟩, hall⟩ | ⟨⟨e, herror⟩, hnot⟩
        · cases hr : s₁.runQueue rest with
          | mk s₂ result =>
            rw [hr] at hok hruns
            cases hok
            exact .inl ⟨⟨reply :: replies, rfl, .next hd hruns⟩, haccept.mp rfl, hall⟩
        · cases hr : s₁.runQueue rest with
          | mk s₂ result =>
            rw [hr] at herror
            cases herror
            exact .inr ⟨⟨e, rfl⟩, fun h => hnot h.2⟩

/-! ### What a command does to the queue -/

theorem watch_queue (s : Served) (keys : List Bytes) :
    (keys.foldl watchKey s).conn.queue = s.conn.queue := by
  induction keys generalizing s with
  | nil => rfl
  | cons key rest ih => exact ih _

/-- Only three commands touch the queue. -/
theorem dispatchWith_queue {exec : Served → Outcome} (s : Served) {name : Bytes} (args : List Bytes)
    (hmulti : verb name ≠ .multi) (hdiscard : verb name ≠ .discard) (hexec : verb name ≠ .exec) :
    (s.dispatchWith exec name args).1.conn.queue = s.conn.queue := by
  unfold dispatchWith
  cases hv : verb name with
  | multi => exact absurd hv hmulti
  | discard => exact absurd hv hdiscard
  | exec => exact absurd hv hexec
  | set => rcases args with _ | ⟨key, _ | ⟨value, rest⟩⟩ <;> rfl
  | get => cases args <;> rfl
  | count down byArgument =>
    dsimp only
    cases s.redis.counted down byArgument args <;> rfl
  | watch => exact s.watch_queue args
  | hello | handshake | ping | del | «exists» | unwatch | unknown => rfl

/-- Outside a transaction nothing is ever queued. -/
theorem redispatch_queue (s : Served) (command : Command) (h : s.conn.queue.getD [] = []) :
    (s.redispatch command).1.conn.queue.getD [] = [] := by
  cases command with
  | nil => exact h
  | cons name args =>
    rw [redispatch]
    cases hv : verb (upper name) with
    | multi => simp [dispatchWith, hv, withQueue]
    | discard => simp [dispatchWith, hv, withQueue, unwatch]
    | exec => simpa [dispatchWith, hv, noTransaction] using h
    | hello | handshake | ping | set | get | del | «exists» | count | watch | unwatch | unknown =>
      rw [s.dispatchWith_queue args (by simp [hv]) (by simp [hv]) (by simp [hv])]
      exact h

/-- No dispatched command is answered as a queued one. -/
theorem dispatchWith_not_queued {exec : Served → Outcome} (s : Served) (name : Bytes)
    (args : List Bytes) (hexec : (exec s).2 ≠ .ok queuedReply) :
    (s.dispatchWith exec name args).2 ≠ .ok queuedReply := by
  have hok : Reply.ok ≠ queuedReply := fun h => absurd (Reply.simple.inj h) (by decide +kernel)
  have hpong : ascii "PONG" ≠ ascii "QUEUED" := by decide +kernel
  unfold dispatchWith
  cases verb name with
  | exec => exact hexec
  | set => rcases args with _ | ⟨key, _ | ⟨value, rest⟩⟩ <;> simp [hok]
  | get => cases args <;> simp [queuedReply]
  | count down byArgument =>
    dsimp only
    cases s.redis.counted down byArgument args <;> simp [queuedReply]
  | ping => cases args <;> simp [queuedReply, hpong]
  | handshake | watch | unwatch | multi | discard => simp [hok]
  | hello | del | «exists» | unknown => simp [queuedReply, helloReply]

theorem exec_not_queued (s : Served) : s.exec.2 ≠ .ok queuedReply := by
  unfold exec
  cases s.conn.queue with
  | none => simp [noTransaction, queuedReply]
  | some queued =>
    dsimp only
    split
    · simp [queuedReply, Reply.nil]
    · cases hr : (s.withQueue none).unwatch.runQueue queued with
      | mk s₁ replies => cases replies <;> simp [queuedReply]

/-- What a command is: queued, malformed or dispatched. -/
theorem handle_cases (s : Served) (command : Command) :
    (∃ queue, s.conn.queue = some queue ∧ command.verb.immediate = false ∧ command ≠ [] ∧
      s.handle command = (s.withQueue (some (queue ++ [command])), .ok queuedReply)) ∨
    (command = [] ∧ s.handle command = (s, .error .indexError)) ∨
    (∃ name args, command = name :: args ∧
      (s.conn.queue = none ∨ command.verb.immediate = true) ∧
      s.handle command = s.dispatch (upper name) args) := by
  cases command with
  | nil => exact .inr (.inl ⟨rfl, rfl⟩)
  | cons name args =>
    unfold handle
    cases hq : s.conn.queue with
    | none => exact .inr (.inr ⟨name, args, rfl, .inl rfl, rfl⟩)
    | some queue =>
      dsimp only
      cases hi : (Services.verb (upper name)).immediate with
      | true => exact .inr (.inr ⟨name, args, rfl, .inr hi, rfl⟩)
      | false => exact .inl ⟨queue, rfl, hi, List.cons_ne_nil _ _, rfl⟩

/-- `EXEC` on an open transaction answers nil, answers in full, or raises. -/
theorem exec_cases (s : Served) {queue : List Command} (hopen : s.conn.queue = some queue) :
    (s.conn.stale s.redis = true ∧ s.exec = ((s.withQueue none).unwatch, .ok .nil)) ∨
    (s.conn.stale s.redis = false ∧ (s.withQueue none).unwatch.AcceptsAll queue ∧
      ∃ replies done, (s.withQueue none).unwatch.Runs queue replies done ∧
        s.exec = (done, .ok (.array (some replies)))) ∨
    (s.conn.stale s.redis = false ∧ ¬ (s.withQueue none).unwatch.AcceptsAll queue ∧
      ∃ e, s.exec.2 = .error e) := by
  rw [exec, hopen]
  cases hstale : s.conn.stale s.redis with
  | true => exact .inl ⟨rfl, rfl⟩
  | false =>
    refine .inr ?_
    dsimp only
    rcases (s.withQueue none).unwatch.runQueue_spec queue with
      ⟨⟨replies, hok, hruns⟩, hall⟩ | ⟨⟨e, herror⟩, hnot⟩
    · cases hr : (s.withQueue none).unwatch.runQueue queue with
      | mk s₁ result =>
        rw [hr] at hok hruns
        cases hok
        exact .inl ⟨rfl, hall, replies, s₁, hruns, rfl⟩
    · cases hr : (s.withQueue none).unwatch.runQueue queue with
      | mk s₁ result =>
        rw [hr] at herror
        cases herror
        exact .inr ⟨rfl, hnot, e, rfl⟩

theorem Runs.queue {s done : Served} {queue : List Command} {replies : List Reply}
    (h : s.Runs queue replies done) (hs : s.conn.queue.getD [] = []) :
    done.conn.queue.getD [] = [] := by
  induction h with
  | done => exact hs
  | @next s₁ _ _ command _ _ _ first others ih =>
    refine ih ?_
    have hq := s₁.redispatch_queue command hs
    rwa [first] at hq

end Served

namespace Server
variable (s : Server) (c : Nat)

theorem after_pending (command : Command) :
    (s.after c command).pending c = ((s.served c).handle command).1.conn.queue.getD [] := by
  simp [after, pending]

theorem after_others (command : Command) : ∀ c' ≠ c, (s.after c command).pending c' = s.pending c' := by
  intro c' hc
  simp [after, pending, hc]

theorem kept_queued {command : Command} (himmediate : command.verb.immediate = false)
    {queue : List Command} (hopen : (s.conns c).queue = some queue)
    (hhandle : (s.served c).handle command =
      ((s.served c).withQueue (some (queue ++ [command])), .ok queuedReply)) : s.Kept c command where
  others := s.after_others c command
  queued := by
    intro _
    refine ⟨?_, congrArg (fun done : Served.Outcome => done.1.redis) hhandle⟩
    rw [after_pending, hhandle, pending, hopen]
    rfl
  exec := fun hv => by rw [hv] at himmediate; cases himmediate
  discard := fun hv => by rw [hv] at himmediate; cases himmediate
  otherwise := fun hout => absurd (congrArg Prod.snd hhandle) hout

/-- What is not queued, and is none of the three commands that touch the queue. -/
theorem kept_plain {command : Command} (hexec : command.verb ≠ .exec)
    (hdiscard : command.verb ≠ .discard) (hout : s.outcome c command ≠ .ok queuedReply)
    (hqueue : ((s.served c).handle command).1.conn.queue = (s.conns c).queue) : s.Kept c command where
  others := s.after_others c command
  queued := fun h => absurd h hout
  exec := fun h => absurd h hexec
  discard := fun h => absurd h hdiscard
  otherwise := fun _ _ _ => by rw [after_pending, hqueue, pending]

theorem kept_exec {command : Command} (hverb : command.verb = .exec)
    (hhandle : (s.served c).handle command = (s.served c).exec) :
    s.Kept c command ↔
      ((s.conns c).stale s.redis = true ∨ (s.released c).AcceptsAll (s.pending c)) := by
  have hqueued : s.outcome c command ≠ .ok queuedReply := by
    rw [outcome, hhandle]
    exact (s.served c).exec_not_queued
  have hkept (h : (s.conns c).queue ≠ none → (s.after c command).pending c = [] ∧
      ((s.outcome c command = .ok .nil ∧ (s.after c command).redis.store = s.redis.store) ∨
        ∃ replies done, (s.released c).Runs (s.pending c) replies done ∧
          s.outcome c command = .ok (.array (some replies)) ∧
          (s.after c command).redis = done.redis)) : s.Kept c command :=
    { others := s.after_others c command
      queued := fun hq => absurd hq hqueued
      exec := fun _ => h
      discard := fun hd => nomatch hverb.symm.trans hd
      otherwise := fun _ he => absurd hverb he }
  cases hopen : (s.conns c).queue with
  | none =>
    refine ⟨fun _ => .inr ?_, fun _ => hkept fun h => absurd hopen h⟩
    rw [pending, hopen]
    trivial
  | some queue =>
    have hpending : s.pending c = queue := by rw [pending, hopen]; rfl
    rw [hpending]
    rcases (s.served c).exec_cases hopen with
      ⟨hstale, heq⟩ | ⟨_, hall, replies, done, hruns, heq⟩ | ⟨hstale, hnot, e, heq⟩
    · refine ⟨fun _ => .inl hstale, fun _ => hkept fun _ => ⟨?_, .inl ⟨?_, ?_⟩⟩⟩
      · rw [after_pending, hhandle, heq]
        rfl
      · rw [outcome, hhandle, heq]
      · show ((s.served c).handle command).1.redis.store = s.redis.store
        rw [hhandle, heq]
        rfl
    · refine ⟨fun _ => .inr hall, fun _ => hkept fun _ => ⟨?_, .inr ⟨replies, done, ?_, ?_, ?_⟩⟩⟩
      · rw [after_pending, hhandle, heq]
        exact hruns.queue rfl
      · rw [hpending]
        exact hruns
      · rw [outcome, hhandle, heq]
      · show ((s.served c).handle command).1.redis = done.redis
        rw [hhandle, heq]
    · have herror : s.outcome c command = .error e := by
        rw [outcome, hhandle]
        exact heq
      constructor
      · intro h
        rcases (h.exec hverb (by simp [hopen])).2 with ⟨hnil, _⟩ | ⟨_, _, _, harray, _⟩
        · rw [herror] at hnil
          cases hnil
        · rw [herror] at harray
          cases harray
      · rintro (h | h)
        · exact absurd (hstale.symm.trans h) Bool.false_ne_true
        · exact absurd h hnot

theorem kept_multi {command : Command} (hverb : command.verb = .multi)
    (hhandle : (s.served c).handle command = ((s.served c).withQueue (some []), .ok .ok)) :
    s.Kept c command ↔ s.pending c = [] := by
  have hqueued : s.outcome c command ≠ .ok queuedReply := by
    rw [outcome, hhandle]
    exact fun h => absurd (Reply.simple.inj (Except.ok.inj h)) (by decide +kernel)
  have hafter : (s.after c command).pending c = [] := by
    rw [after_pending, hhandle]
    rfl
  constructor
  · intro h
    rw [← h.otherwise hqueued (by simp [hverb]) (by simp [hverb]), hafter]
  · intro h
    exact {
      others := s.after_others c command
      queued := fun hq => absurd hq hqueued
      exec := fun he => nomatch hverb.symm.trans he
      discard := fun hd => nomatch hverb.symm.trans hd
      otherwise := fun _ _ _ => hafter.trans h.symm }

theorem kept_discard {command : Command} (hverb : command.verb = .discard)
    (hhandle : (s.served c).handle command = (((s.served c).withQueue none).unwatch, .ok .ok)) :
    s.Kept c command where
  others := s.after_others c command
  queued := by
    rw [outcome, hhandle]
    exact fun h => absurd (Reply.simple.inj (Except.ok.inj h)) (by decide +kernel)
  exec := fun h => nomatch hverb.symm.trans h
  discard := by
    intro _
    refine ⟨?_, ?_⟩
    · rw [after_pending, hhandle]
      rfl
    · show ((s.served c).handle command).1.redis.store = s.redis.store
      rw [hhandle]
      rfl
  otherwise := fun _ _ h => absurd hverb h

/-- A command does to queued commands what was promised exactly when it is orderly. -/
theorem kept_iff (command : Command) : s.Kept c command ↔ s.Orderly c command := by
  rcases (s.served c).handle_cases command with
    ⟨queue, hopen, himm, _, hhandle⟩ | ⟨rfl, hhandle⟩ | ⟨name, args, rfl, _, hhandle⟩
  · refine ⟨fun _ => ?_, fun _ => s.kept_queued c himm hopen hhandle⟩
    unfold Orderly
    cases hv : command.verb <;> first | trivial | (rw [hv] at himm; cases himm)
  · refine ⟨fun _ => trivial, fun _ => s.kept_plain c ?_ ?_ ?_ ?_⟩
    · exact fun h => nomatch h
    · exact fun h => nomatch h
    · exact fun h => nomatch (congrArg Prod.snd hhandle).symm.trans h
    · rw [hhandle]
      rfl
  · have hverb : Command.verb (name :: args) = verb (upper name) := rfl
    have hplain (hm : verb (upper name) ≠ .multi) (hd : verb (upper name) ≠ .discard)
        (he : verb (upper name) ≠ .exec) : s.Kept c (name :: args) := by
      refine s.kept_plain c he hd ?_ ?_
      · rw [outcome, hhandle]
        exact (s.served c).dispatchWith_not_queued _ args (s.served c).exec_not_queued
      · rw [hhandle]
        exact (s.served c).dispatchWith_queue args hm hd he
    unfold Orderly
    rw [hverb]
    cases hv : verb (upper name) with
    | exec =>
      refine s.kept_exec c hv ?_
      simp [hhandle, Served.dispatch, Served.dispatchWith, hv]
    | multi =>
      refine s.kept_multi c hv ?_
      simp [hhandle, Served.dispatch, Served.dispatchWith, hv]
    | discard =>
      refine ⟨fun _ => trivial, fun _ => s.kept_discard c hv ?_⟩
      simp [hhandle, Served.dispatch, Served.dispatchWith, hv]
    | hello | handshake | ping | set | get | del | «exists» | count | watch | unwatch | unknown =>
      exact ⟨fun _ => trivial, fun _ => hplain (by simp [hv]) (by simp [hv]) (by simp [hv])⟩

/-! ### Every run -/

def Event.Kept (s : Server) : Event → Prop
  | .receive c command => s.Kept c command
  | .hangUp _ => True

def Event.Orderly (s : Server) : Event → Prop
  | .receive c command => s.Orderly c command
  | .hangUp _ => True

/-- On every run, whatever is queued is run as a whole or dropped as a whole if and only if
every command of the run is orderly. -/
theorem kept_run_iff (events : List Event) :
    Transition.Along step Event.Kept start events ↔ Transition.Along step Event.Orderly start events := by
  have heq : Event.Kept = Event.Orderly := by
    funext s event
    cases event with
    | receive c command => exact propext (s.kept_iff c command)
    | hangUp c => rfl
  rw [heq]

/-- Two commands are queued, and the second counts from what is no number. -/
def halfway : List Event :=
  [[ascii "SET", ascii "k", ascii "x"], [ascii "MULTI"], [ascii "SET", ascii "a", ascii "1"],
    [ascii "INCR", ascii "k"]].map (.receive 0)

/-- The transaction raises when the first of the two has been run. -/
theorem exec_halfway : ∃ s, Transition.run step start halfway = some s ∧
    s.pending 0 = [[ascii "SET", ascii "a", ascii "1"], [ascii "INCR", ascii "k"]] ∧
    s.outcome 0 [ascii "EXEC"] = .error .valueError ∧
    s.redis.store.get? (ascii "a") = none ∧
    (s.after 0 [ascii "EXEC"]).redis.store.get? (ascii "a") = some (ascii "1") ∧
    ¬ s.Kept 0 [ascii "EXEC"] := by
  have hrun : (Transition.run step start halfway).any fun s =>
      decide (s.pending 0 = [[ascii "SET", ascii "a", ascii "1"], [ascii "INCR", ascii "k"]]) &&
      (match s.outcome 0 [ascii "EXEC"] with
        | .error e => decide (e = .valueError)
        | .ok _ => false) &&
      decide (s.redis.store.get? (ascii "a") = none) &&
      decide ((s.after 0 [ascii "EXEC"]).redis.store.get? (ascii "a") = some (ascii "1")) := by
    decide +kernel
  obtain ⟨s, hs, hall⟩ := Option.any_eq_true _ _ |>.mp hrun
  simp only [Bool.and_eq_true, decide_eq_true_eq] at hall
  obtain ⟨⟨⟨hpending, hout⟩, hbefore⟩, hafter⟩ := hall
  have herror : s.outcome 0 [ascii "EXEC"] = .error .valueError := by
    cases ho : s.outcome 0 [ascii "EXEC"] with
    | error e =>
      rw [ho] at hout
      rw [of_decide_eq_true hout]
    | ok reply =>
      rw [ho] at hout
      cases hout
  refine ⟨s, hs, hpending, herror, hbefore, hafter, fun hkept => ?_⟩
  have hopen : (s.conns 0).queue ≠ none := fun hnone => by
    rw [pending, hnone] at hpending
    cases hpending
  rcases (hkept.exec (by decide +kernel) hopen).2 with ⟨hnil, _⟩ | ⟨_, _, _, harray, _⟩
  · rw [herror] at hnil
    cases hnil
  · rw [herror] at harray
    cases harray

end Server

end Simloom.Services
