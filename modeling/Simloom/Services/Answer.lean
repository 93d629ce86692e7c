import Simloom.Services.Queue

/-! How commands are answered.

`handle` is to write one reply for each command: an error for a wrong number of arguments or for a
value that is not an integer, and nothing is to escape it. Its branches index and parse their
arguments as they come, at once or when `EXEC` runs the queue, and the text of an error repeats the
name of the command, line ends included. `answered_iff_fit` says which commands are answered as
they should be. -/
namespace Simloom.Services
open Theory

/-! ### The promise -/

/-- A line end inside a text. -/
def hasCrlf : Bytes → Bool
  | 13 :: 10 :: _ => true
  | _ :: rest => hasCrlf rest
  | [] => false

/-- On the wire it is one reply: no text of it ends its line early. -/
inductive Reply.Framed : Reply → Prop where
  | simple {text : Bytes} (h : hasCrlf text = false) : Framed (.simple text)
  | error {text : Bytes} (h : hasCrlf text = false) : Framed (.error text)
  | integer (value : Int) : Framed (.integer value)
  | bulk (data : Option Bytes) : Framed (.bulk data)
  | nil : Framed (.array none)
  | array {items : List Reply} (h : ∀ item ∈ items, Framed item) : Framed (.array (some items))

/-- A command of the `INCR` family counts by, or from, what is not an integer. -/
def SimRedis.NotInteger (r : SimRedis) (command : Command) : Prop :=
  ∃ down byArgument, command.verb = .count down byArgument ∧
    ((byArgument = true ∧ ∃ text, command.tail[1]? = some text ∧ parseInt text = none) ∨
      ∃ key, command.tail[0]? = some key ∧ parseInt ((r.store.get? key).getD (ascii "0")) = none)

namespace Served
variable (right : Verb → Nat → Bool)

/-- A command is answered, by an error if its number of arguments is not right or, where it is
executed, a value is not an integer; an error changes nothing. -/
structure Answered (s : Served) (command : Command) (outcome : Outcome) (executed : Bool) :
    Prop where
  reply : ∃ reply, outcome.2 = .ok reply ∧ reply.Framed
  wrong : right command.verb command.tail.length = false → ∃ text, outcome.2 = .ok (.error text)
  integer : executed = true → s.redis.NotInteger command → ∃ text, outcome.2 = .ok (.error text)
  unchanged : ∀ text, outcome.2 = .ok (.error text) →
    outcome.1.redis.store = s.redis.store ∧ outcome.1.redis.version = s.redis.version

/-- So are the commands of a queue that is run. -/
def AnsweredAll (s : Served) : List Command → Prop
  | [] => True
  | command :: rest =>
    Answered right s command (s.redispatch command) true ∧ AnsweredAll (s.redispatch command).1 rest

/-- The command will be queued. -/
def queues (s : Served) (command : Command) : Bool :=
  s.conn.queue.isSome && !command.verb.immediate

/-- A command is answered, and where it is an `EXEC` that runs a queue, so are the commands in it,
within its reply and in order. -/
structure Answers (s : Served) (command : Command) : Prop where
  answered : Answered right s command (s.handle command) !s.queues command
  exec : command.verb = .exec → ∀ queue, s.conn.queue = some queue →
    s.conn.stale s.redis = false →
    AnsweredAll right (s.withQueue none).unwatch queue ∧
      ∃ replies done, (s.withQueue none).unwatch.Runs queue replies done ∧
        (s.handle command).2 = .ok (.array (some replies))

/-- `handle` over the commands of a connection: the replies that it writes, and what a command
raises. -/
def serve (s : Served) : List Command → List Reply × Except Fault Served
  | [] => ([], .ok s)
  | command :: rest =>
    match s.handle command with
    | (_, .error e) => ([], .error e)
    | (s', .ok reply) => (reply :: (serve s' rest).1, (serve s' rest).2)

/-- Each command is answered as it should be. -/
def AllAnswer (s : Served) : List Command → Prop
  | [] => True
  | command :: rest => Answers right s command ∧ AllAnswer (s.handle command).1 rest

end Served

/-! ### Where it is kept -/

/-- There is an integer to count by and one to count from, and the sum prints. -/
def SimRedis.Countable (r : SimRedis) (down byArgument : Bool) (args : List Bytes) : Prop :=
  ∃ key step value, args[0]? = some key ∧
    (if byArgument then (args[1]?).bind parseInt = some step else step = 1) ∧
    parseInt ((r.store.get? key).getD (ascii "0")) = some value ∧
    (printInt (value + if down then -step else step)).isSome = true

/-- What the branch of a command takes for granted. -/
def SimRedis.Suits (r : SimRedis) (args : List Bytes) : Verb → Prop
  | .set => 2 ≤ args.length
  | .get => 1 ≤ args.length
  | .count down byArgument => r.Countable down byArgument args
  | _ => True

namespace Served
variable (right : Verb → Nat → Bool)

/-- A command that is executed outside a transaction, or by `EXEC`. -/
def Fine (r : SimRedis) (command : Command) : Prop :=
  command ≠ [] ∧
    match command.verb with
    | .exec => True
    | .unknown => hasCrlf (upper (command.headD [])) = false
    | v => right v command.tail.length = true ∧ r.Suits command.tail v

/-- Each command is fine when the commands before it have run. -/
def FineAll (s : Served) : List Command → Prop
  | [] => True
  | command :: rest => Fine right s.redis command ∧ FineAll (s.redispatch command).1 rest

/-- What a command needs to be answered as it should be. -/
def Fit (s : Served) (command : Command) : Prop :=
  match s.conn.queue with
  | none => Fine right s.redis command
  | some queue => command ≠ [] ∧ right command.verb command.tail.length = true ∧
      (command.verb = .exec →
        s.conn.stale s.redis = true ∨ FineAll right (s.withQueue none).unwatch queue)

def AllFit (s : Served) : List Command → Prop
  | [] => True
  | command :: rest => Fit right s command ∧ AllFit (s.handle command).1 rest

end Served

/-! ### Texts of errors -/

theorem hasCrlf_cons {b : UInt8} (hb : b ≠ 13) (rest : Bytes) :
    hasCrlf (b :: rest) = hasCrlf rest := by
  cases rest <;> simp [hasCrlf, hb]

theorem hasCrlf_append {text : Bytes} (htext : ∀ b ∈ text, b ≠ 13) (rest : Bytes) :
    hasCrlf (text ++ rest) = hasCrlf rest := by
  induction text with
  | nil => rfl
  | cons b text ih =>
    rw [List.cons_append, hasCrlf_cons (htext b List.mem_cons_self),
      ih fun x hx => htext x (List.mem_cons_of_mem b hx)]

theorem hasCrlf_concat {b : UInt8} (hb : b ≠ 10) (text : Bytes) :
    hasCrlf (text ++ [b]) = hasCrlf text := by
  induction text using hasCrlf.induct with
  | case1 rest => rfl
  | case2 a rest hnot ih =>
    have hskip : ∀ more, a = 13 → rest ++ [b] = 10 :: more → False := fun more ha hmore => by
      cases rest with
      | nil => exact hb (List.cons.inj hmore).1
      | cons c rest => exact hnot rest ha (by rw [(List.cons.inj hmore).1])
    rw [List.cons_append, hasCrlf, hasCrlf, ih]
    · exact hnot
    · exact hskip
  | case3 => simp [hasCrlf]

/-! ### Numbers -/

/-- Once there is a step, the rest of the branch. -/
def SimRedis.countBy (r : SimRedis) (step : Int) (args : List Bytes) :
    Except Fault (Bytes × Int × Bytes) :=
  match args[0]? with
  | none => .error .indexError
  | some key =>
    match parseInt ((r.store.get? key).getD (ascii "0")) with
    | none => .error .valueError
    | some value =>
      match printInt (value + step) with
      | none => .error .valueError
      | some text => .ok (key, value + step, text)

theorem countBy_isOk (r : SimRedis) (step : Int) (args : List Bytes) :
    (r.countBy step args).isOk = true ↔ ∃ key value, args[0]? = some key ∧
      parseInt ((r.store.get? key).getD (ascii "0")) = some value ∧
      (printInt (value + step)).isSome = true := by
  unfold SimRedis.countBy
  cases args[0]? with
  | none => simp [Except.isOk, Except.toBool]
  | some key =>
    cases hvalue : parseInt ((r.store.get? key).getD (ascii "0")) with
    | none => simp [hvalue, Except.isOk, Except.toBool]
    | some value =>
      cases hprint : printInt (value + step) <;>
        simp [hvalue, hprint, Except.isOk, Except.toBool]

theorem counted_plain (r : SimRedis) (down : Bool) (args : List Bytes) :
    r.counted down false args = r.countBy (if down then -1 else 1) args := rfl

theorem counted_step (r : SimRedis) (down : Bool) {args : List Bytes} {step : Int}
    (h : (args[1]?).bind parseInt = some step) :
    r.counted down true args = r.countBy (if down then -step else step) args := by
  obtain ⟨text, htext, hparse⟩ := Option.bind_eq_some_iff.mp h
  unfold SimRedis.counted
  simp only [htext, hparse, if_pos]
  rfl

theorem counted_no_step (r : SimRedis) (down : Bool) {args : List Bytes}
    (h : (args[1]?).bind parseInt = none) : (r.counted down true args).isOk = false := by
  unfold SimRedis.counted
  cases htext : args[1]? with
  | none => rfl
  | some text =>
    rw [htext, Option.bind_some] at h
    simp [h]
    rfl

theorem counted_isOk (r : SimRedis) (down byArgument : Bool) (args : List Bytes) :
    (r.counted down byArgument args).isOk = true ↔ r.Countable down byArgument args := by
  unfold SimRedis.Countable
  cases byArgument with
  | false =>
    rw [counted_plain, countBy_isOk]
    constructor
    · rintro ⟨key, value, hkey, hvalue, hprint⟩
      exact ⟨key, 1, value, hkey, rfl, hvalue, hprint⟩
    · rintro ⟨key, step, value, hkey, hstep, hvalue, hprint⟩
      obtain rfl : step = 1 := hstep
      exact ⟨key, value, hkey, hvalue, hprint⟩
  | true =>
    cases hstep : (args[1]?).bind parseInt with
    | none => simp [counted_no_step r down hstep]
    | some step =>
      rw [counted_step r down hstep, countBy_isOk]
      constructor
      · rintro ⟨key, value, hkey, hvalue, hprint⟩
        exact ⟨key, step, value, hkey, rfl, hvalue, hprint⟩
      · rintro ⟨key, step', value, hkey, hstep', hvalue, hprint⟩
        obtain rfl : step = step' := Option.some.inj hstep'
        exact ⟨key, value, hkey, hvalue, hprint⟩


theorem SimRedis.Countable.integers {r : SimRedis} {down byArgument : Bool} {command : Command}
    (h : r.Countable down byArgument command.tail) (hverb : command.verb = .count down byArgument) :
    ¬ r.NotInteger command := by
  rintro ⟨down', byArgument', hverb', hnot⟩
  obtain ⟨key, step, value, hkey, hstep, hvalue, -⟩ := h
  obtain ⟨rfl, rfl⟩ := Verb.count.inj (hverb.symm.trans hverb')
  rcases hnot with ⟨rfl, text, htext, hnone⟩ | ⟨key', hkey', hnone⟩
  · rw [if_pos rfl, htext, Option.bind_some, hnone] at hstep
    cases hstep
  · obtain rfl := Option.some.inj (hkey.symm.trans hkey')
    rw [hnone] at hvalue
    cases hvalue

theorem integers_of_ne {r : SimRedis} {command : Command}
    (h : ∀ down byArgument, command.verb ≠ .count down byArgument) : ¬ r.NotInteger command :=
  fun ⟨down, byArgument, hverb, _⟩ => h down byArgument hverb

namespace Served
variable {right : Verb → Nat → Bool} {s : Served} {command : Command} {outcome : Outcome}
  {executed : Bool}

/-! ### One reply -/

/-- What is not an error is right for a well-formed command. -/
theorem answered_plain {reply : Reply} (hok : outcome.2 = .ok reply) (hframed : reply.Framed)
    (hplain : ∀ text, reply ≠ .error text) :
    Answered right s command outcome executed ↔
      right command.verb command.tail.length = true ∧
        (executed = true → ¬ s.redis.NotInteger command) := by
  have hnot : ¬ ∃ text, outcome.2 = .ok (.error text) := fun ⟨text, htext⟩ =>
    hplain text (Except.ok.inj (hok.symm.trans htext))
  constructor
  · intro h
    refine ⟨?_, fun hexecuted hinteger => hnot (h.integer hexecuted hinteger)⟩
    cases hright : right command.verb command.tail.length with
    | true => rfl
    | false => exact absurd (h.wrong hright) hnot
  · rintro ⟨hright, hinteger⟩
    exact {
      reply := ⟨reply, hok, hframed⟩
      wrong := fun hwrong => absurd (hright.symm.trans hwrong) (by decide)
      integer := fun hexecuted hbad => absurd hbad (hinteger hexecuted)
      unchanged := fun text htext => absurd ⟨text, htext⟩ hnot }

theorem not_answered {e : Fault} (h : outcome.2 = .error e) :
    ¬ Answered right s command outcome executed := by
  rintro ⟨⟨reply, hok, -⟩, -, -, -⟩
  rw [h] at hok
  cases hok

/-- A refusal is always right, if it is one line. -/
theorem answered_refusal (text : Bytes) :
    Answered right s command (s, .ok (.error text)) executed ↔ hasCrlf text = false := by
  constructor
  · rintro ⟨⟨reply, hok, hframed⟩, -, -, -⟩
    obtain rfl := Except.ok.inj hok
    cases hframed with
    | error h => exact h
  · exact fun h => {
      reply := ⟨_, rfl, .error h⟩
      wrong := fun _ => ⟨text, rfl⟩
      integer := fun _ _ => ⟨text, rfl⟩
      unchanged := fun _ _ => ⟨rfl, rfl⟩ }

/-- The text of a refusal holds the name as it came. -/
theorem hasCrlf_unknown (name : Bytes) :
    hasCrlf (ascii "ERR unknown command '" ++ name ++ ascii "'") = hasCrlf name := by
  have hquote : ascii "'" = [39] := by decide
  rw [hquote, hasCrlf_concat (by decide), hasCrlf_append (by decide +kernel)]

theorem framed_ok : Reply.ok.Framed := .simple (by decide)

theorem framed_hello : helloReply.Framed := by
  refine .array fun item hitem => ?_
  simp only [List.mem_cons, List.not_mem_nil, or_false] at hitem
  rcases hitem with rfl | rfl | rfl | rfl | rfl | rfl | rfl | rfl | rfl | rfl | rfl | rfl | rfl | rfl
  all_goals first
    | exact .bulk _
    | exact .integer _
    | exact .array fun _ h => absurd h List.not_mem_nil

/-- What replies, whatever the arguments, has only their number to answer for. -/
theorem answered_uncounted {name : Bytes} {args : List Bytes} {v : Verb} {reply : Reply}
    (hv : verb (upper name) = v) (hok : outcome.2 = .ok reply) (hframed : reply.Framed)
    (hreply : ∀ text, reply ≠ .error text)
    (hcount : ∀ down byArgument, v ≠ .count down byArgument) :
    Answered right s (name :: args) outcome true ↔ right v args.length = true := by
  rw [answered_plain hok hframed hreply]
  have hinteger : ¬ s.redis.NotInteger (name :: args) :=
    integers_of_ne fun down byArgument h => hcount down byArgument (hv.symm.trans h)
  simp only [hinteger, not_false_eq_true, implies_true, and_true]
  exact iff_of_eq (by rw [← hv]; rfl)

/-- The commands that count. -/
theorem answered_count {exec : Served → Outcome} {name : Bytes} {args : List Bytes}
    {down byArgument : Bool} (hv : verb (upper name) = .count down byArgument) :
    Answered right s (name :: args) (s.dispatchWith exec (upper name) args) true ↔
      right (.count down byArgument) args.length = true ∧
        s.redis.Countable down byArgument args := by
  have hsuits := counted_isOk s.redis down byArgument args
  simp only [dispatchWith, hv]
  cases hcounted : s.redis.counted down byArgument args with
  | error e =>
    rw [hcounted] at hsuits
    have hnot : ¬ s.redis.Countable down byArgument args := fun h =>
      Bool.false_ne_true (hsuits.mpr h)
    simp [hnot, not_answered (e := e)]
  | ok done =>
    obtain ⟨key, value, text⟩ := done
    rw [hcounted] at hsuits
    have hcountable := hsuits.mp rfl
    rw [answered_plain rfl (.integer _) (by simp)]
    have hinteger := @SimRedis.Countable.integers _ _ _ (name :: args) hcountable hv
    simp only [hcountable, hinteger, not_false_eq_true, implies_true, and_true]
    exact iff_of_eq (by rw [← hv]; rfl)

/-- A command that no branch of `EXEC` is about is answered as it should be where it is fine. -/
theorem answered_dispatchWith {exec : Served → Outcome} {name : Bytes} {args : List Bytes}
    (hexec : verb (upper name) ≠ .exec) :
    Answered right s (name :: args) (s.dispatchWith exec (upper name) args) true ↔
      Fine right s.redis (name :: args) := by
  have hverb : Command.verb (name :: args) = verb (upper name) := rfl
  unfold Fine
  rw [hverb]
  simp only [ne_eq, reduceCtorEq, not_false_eq_true, true_and, List.tail_cons, List.headD_cons]
  cases hv : verb (upper name) with
  | exec => exact absurd hv hexec
  | unknown =>
    simp only [dispatchWith, hv]
    rw [answered_refusal, hasCrlf_unknown]
  | hello =>
    rw [answered_uncounted hv (by simp only [dispatchWith, hv]) framed_hello (fun _ => by simp [helloReply]) (by simp)]
    simp [SimRedis.Suits]
  | handshake | watch | unwatch | multi | discard =>
    rw [answered_uncounted hv (by simp only [dispatchWith, hv]) framed_ok (fun _ => by simp [Reply.ok]) (by simp)]
    simp [SimRedis.Suits]
  | ping =>
    cases args with
    | nil =>
      rw [answered_uncounted hv (by simp only [dispatchWith, hv]; rfl) (.simple (by decide)) (by simp) (by simp)]
      simp [SimRedis.Suits]
    | cons data rest =>
      rw [answered_uncounted hv (by simp only [dispatchWith, hv]; rfl) (.bulk _) (by simp) (by simp)]
      simp [SimRedis.Suits]
  | del | «exists» =>
    rw [answered_uncounted hv (by simp only [dispatchWith, hv]; rfl) (.integer _) (by simp) (by simp)]
    simp [SimRedis.Suits]
  | set =>
    rcases args with _ | ⟨key, _ | ⟨value, rest⟩⟩
    · simp [SimRedis.Suits, not_answered (e := .indexError), dispatchWith, hv]
    · simp [SimRedis.Suits, not_answered (e := .indexError), dispatchWith, hv]
    · rw [answered_uncounted hv (by simp only [dispatchWith, hv]) framed_ok (by simp [Reply.ok]) (by simp)]
      simp [SimRedis.Suits]
  | get =>
    cases args with
    | nil => simp [SimRedis.Suits, not_answered (e := .indexError), dispatchWith, hv]
    | cons key rest =>
      rw [answered_uncounted hv (by simp only [dispatchWith, hv]; rfl) (.bulk _) (by simp) (by simp)]
      simp [SimRedis.Suits]
  | count down byArgument => exact answered_count hv

/-! ### A queue -/

/-- `EXEC` without a transaction is refused. -/
theorem answered_noTransaction :
    Answered right s command s.noTransaction executed :=
  (answered_refusal _).mpr (by decide)

theorem fine_exec {r : SimRedis} {name : Bytes} {args : List Bytes}
    (hexec : verb (upper name) = .exec) : Fine right r (name :: args) :=
  ⟨List.cons_ne_nil _ _, by rw [show Command.verb (name :: args) = .exec from hexec]; trivial⟩

theorem answered_redispatch : Answered right s command (s.redispatch command) true ↔
    Fine right s.redis command := by
  cases command with
  | nil =>
    rw [redispatch]
    exact iff_of_false (not_answered rfl) fun h => h.1 rfl
  | cons name args =>
    by_cases hexec : verb (upper name) = .exec
    · have hrefused : s.redispatch (name :: args) = s.noTransaction := by
        simp only [redispatch, dispatchWith, hexec]
      rw [hrefused]
      exact iff_of_true answered_noTransaction (fine_exec hexec)
    · exact answered_dispatchWith hexec

theorem answeredAll_iff {queue : List Command} : AnsweredAll right s queue ↔ FineAll right s queue := by
  induction queue generalizing s with
  | nil => exact Iff.rfl
  | cons command rest ih => exact and_congr answered_redispatch ih

/-- The replies that `EXEC` gathers. -/
theorem runQueue_answered {queue : List Command} (h : AnsweredAll right s queue) :
    ∃ replies done, s.runQueue queue = (done, .ok replies) ∧ s.Runs queue replies done ∧
      ∀ reply ∈ replies, reply.Framed := by
  induction queue generalizing s with
  | nil => exact ⟨[], s, rfl, .done, nofun⟩
  | cons command rest ih =>
    obtain ⟨hcommand, hrest⟩ := h
    obtain ⟨reply, hreply, hframed⟩ := hcommand.reply
    obtain ⟨replies, done, hrun, hruns, hall⟩ := ih hrest
    have hfirst : s.redispatch command = ((s.redispatch command).1, .ok reply) := Prod.ext rfl hreply
    refine ⟨reply :: replies, done, ?_, .next hfirst hruns, fun r hr => ?_⟩
    · rw [runQueue, hfirst]
      simp only [hrun]
    · rcases List.mem_cons.mp hr with rfl | hr
      · exact hframed
      · exact hall r hr

/-! ### One command -/

/-- Where no queue is run, the reply is all there is. -/
theorem answers_of_not_exec (h : command.verb ≠ .exec ∨ s.conn.queue = none) :
    Answers right s command ↔ Answered right s command (s.handle command) !s.queues command := by
  refine ⟨Answers.answered, fun hanswered => ⟨hanswered, fun hverb queue hqueue => ?_⟩⟩
  rcases h with h | h
  · exact absurd hverb h
  · rw [h] at hqueue
    cases hqueue

theorem answers_closed (hqueue : s.conn.queue = none) :
    Answers right s command ↔ Fine right s.redis command := by
  rw [answers_of_not_exec (.inr hqueue)]
  have hnow : (!s.queues command) = true := by simp [queues, hqueue]
  rw [hnow]
  cases command with
  | nil => exact iff_of_false (not_answered rfl) fun h => h.1 rfl
  | cons name args =>
    have hhandle : s.handle (name :: args) = s.dispatch (upper name) args := by
      unfold handle
      rw [hqueue]
    rw [hhandle]
    by_cases hexec : verb (upper name) = .exec
    · have hrefused : s.dispatch (upper name) args = s.noTransaction := by
        simp only [dispatch, dispatchWith, hexec, Served.exec, hqueue]
      rw [hrefused]
      exact iff_of_true answered_noTransaction (fine_exec hexec)
    · exact answered_dispatchWith hexec

/-- `EXEC` of an open transaction. -/
theorem answers_exec {name : Bytes} {args : List Bytes} {queue : List Command}
    (hqueue : s.conn.queue = some queue) (hexec : verb (upper name) = .exec) :
    Answers right s (name :: args) ↔ right .exec args.length = true ∧
      (s.conn.stale s.redis = true ∨ FineAll right (s.withQueue none).unwatch queue) := by
  have hverb : Command.verb (name :: args) = .exec := hexec
  have hinteger : ¬ s.redis.NotInteger (name :: args) := integers_of_ne (by simp [hverb])
  have himmediate : s.handle (name :: args) = s.exec := by
    unfold handle
    simp only [hqueue, hexec, Verb.immediate, if_true, dispatch, dispatchWith]
  have hanswered {reply : Reply} (hok : (s.handle (name :: args)).2 = .ok reply)
      (hframed : reply.Framed) (hplain : ∀ text, reply ≠ .error text) :
      Answered right s (name :: args) (s.handle (name :: args)) (!s.queues (name :: args)) ↔
        right .exec args.length = true := by
    rw [answered_plain hok hframed hplain, hverb]
    simp [hinteger]
  constructor
  · rintro ⟨hreply, hrun⟩
    cases hstale : s.conn.stale s.redis with
    | true =>
      have hnil : (s.handle (name :: args)).2 = .ok .nil := by
        simp only [himmediate, Served.exec, hqueue, hstale, if_true]
      exact ⟨(hanswered hnil .nil (by simp [Reply.nil])).mp hreply, .inl rfl⟩
    | false =>
      obtain ⟨hall, replies, done, -, hok⟩ := hrun hverb queue hqueue hstale
      obtain ⟨reply, hreply', hframed⟩ := hreply.reply
      obtain rfl := Except.ok.inj (hok.symm.trans hreply')
      exact ⟨(hanswered hok hframed (by simp)).mp hreply, .inr (answeredAll_iff.mp hall)⟩
  · rintro ⟨hright, hrun⟩
    cases hstale : s.conn.stale s.redis with
    | true =>
      have hnil : (s.handle (name :: args)).2 = .ok .nil := by
        simp only [himmediate, Served.exec, hqueue, hstale, if_true]
      exact ⟨(hanswered hnil .nil (by simp [Reply.nil])).mpr hright,
        fun _ _ _ hfresh => absurd (hstale.symm.trans hfresh) (by decide)⟩
    | false =>
      have hall := answeredAll_iff.mpr (hrun.resolve_left (by simp [hstale]))
      obtain ⟨replies, done, hqueued, hruns, hframed⟩ := runQueue_answered hall
      have hok : (s.handle (name :: args)).2 = .ok (.array (some replies)) := by
        simp only [himmediate, Served.exec, hqueue, hstale, Bool.false_eq_true, if_false, hqueued]
      refine ⟨(hanswered hok (.array hframed) (by simp)).mpr hright, fun _ queue' hqueue' _ => ?_⟩
      obtain rfl := Option.some.inj (hqueue.symm.trans hqueue')
      exact ⟨hall, replies, done, hruns, hok⟩

/-- Any other command inside a transaction. -/
theorem answers_open {name : Bytes} {args : List Bytes} {queue : List Command}
    (hqueue : s.conn.queue = some queue) (hexec : verb (upper name) ≠ .exec) :
    Answers right s (name :: args) ↔ right (verb (upper name)) args.length = true := by
  have hverb : Command.verb (name :: args) ≠ .exec := hexec
  rw [answers_of_not_exec (.inl hverb)]
  cases himmediate : (verb (upper name)).immediate with
  | false =>
    have hhandle : s.handle (name :: args) =
        (s.withQueue (some (queue ++ [name :: args])), .ok queuedReply) := by
      unfold handle
      rw [hqueue]
      simp only [himmediate]
      rfl
    have hlater : (!s.queues (name :: args)) = false := by
      simp [queues, hqueue, show (Command.verb (name :: args)).immediate = false from himmediate]
    rw [hhandle, hlater, answered_plain rfl (.simple (by decide)) (by simp)]
    simp [Command.verb]
  | true =>
    have hhandle : s.handle (name :: args) = s.dispatch (upper name) args := by
      unfold handle
      rw [hqueue]
      simp only [himmediate, if_true]
    have hnow : (!s.queues (name :: args)) = true := by
      simp [queues, show (Command.verb (name :: args)).immediate = true from himmediate]
    rw [hhandle, hnow, dispatch, answered_dispatchWith hexec]
    have hverb : Command.verb (name :: args) = verb (upper name) := rfl
    unfold Fine
    rw [hverb]
    cases hv : verb (upper name) with
    | multi | discard | watch => simp [SimRedis.Suits]
    | exec => exact absurd hv hexec
    | _ =>
      rw [hv] at himmediate
      cases himmediate

theorem answers_iff : Answers right s command ↔ Fit right s command := by
  unfold Fit
  cases hqueue : s.conn.queue with
  | none => exact answers_closed hqueue
  | some queue =>
    cases command with
    | nil =>
      exact iff_of_false (fun h => not_answered rfl h.answered) fun h => h.1 rfl
    | cons name args =>
      have hverb : Command.verb (name :: args) = verb (upper name) := rfl
      simp only [ne_eq, reduceCtorEq, not_false_eq_true, true_and, hverb, List.tail_cons]
      by_cases hexec : verb (upper name) = .exec
      · simp only [answers_exec hqueue hexec, hexec, forall_const]
      · simp only [answers_open hqueue hexec, hexec, false_imp_iff, and_true]

/-! ### A connection -/

theorem allAnswer_iff {commands : List Command} :
    AllAnswer right s commands ↔ AllFit right s commands := by
  induction commands generalizing s with
  | nil => exact Iff.rfl
  | cons command rest ih => exact and_congr answers_iff ih

/-- Where each command is answered, `handle` comes to the end of them. -/
theorem serve_of_allAnswer {commands : List Command} (h : AllAnswer right s commands) :
    (s.serve commands).2.isOk = true ∧ (s.serve commands).1.length = commands.length := by
  induction commands generalizing s with
  | nil => exact ⟨rfl, rfl⟩
  | cons command rest ih =>
    obtain ⟨reply, hreply, -⟩ := h.1.answered.reply
    have hfirst : s.handle command = ((s.handle command).1, .ok reply) := Prod.ext rfl hreply
    obtain ⟨hok, hlength⟩ := ih h.2
    rw [serve, hfirst]
    exact ⟨hok, congrArg (· + 1) hlength⟩

/-- Whatever numbers of arguments are right: the commands of a connection are answered, one reply
each and as they should be, exactly if each is fit when it comes. -/
theorem answered_iff_fit (right : Verb → Nat → Bool) (s : Served) (commands : List Command) :
    ((s.serve commands).2.isOk = true ∧ (s.serve commands).1.length = commands.length ∧
      AllAnswer right s commands) ↔ AllFit right s commands := by
  rw [← allAnswer_iff]
  exact ⟨fun h => h.2.2, fun h => ⟨(serve_of_allAnswer h).1, (serve_of_allAnswer h).2, h⟩⟩

/-- `GET` without a key, on a new connection to a new server, raises. -/
theorem get_without_key :
    ((⟨.new, .new 0⟩ : Served).serve [[ascii "GET"]]).2.isOk = false ∧
      ((⟨.new, .new 0⟩ : Served).serve [[ascii "GET"]]).1.length = 0 ∧
      ¬ AllAnswer (fun _ _ => true) ⟨.new, .new 0⟩ [[ascii "GET"]] := by
  refine ⟨by decide +kernel, by decide +kernel, ?_⟩
  rintro ⟨⟨hanswered, -⟩, -⟩
  obtain ⟨reply, hreply, -⟩ := hanswered.reply
  have hraises : ((⟨.new, .new 0⟩ : Served).handle [ascii "GET"]).2.isOk = false := by
    decide +kernel
  rw [hreply] at hraises
  cases hraises

end Served

end Simloom.Services
