import Simloom.Services.Framing
import Simloom.Services.Transactions

/-! `SimRedis` on the wire.

Each connection's handler reads commands from its own stream, in whatever chunks they come, and
writes the bytes of each reply behind those of the last. Seen from the server this is the server
that takes whole commands (`wire_refines`), so what holds of every run of that one holds of the
bytes; and what has been written can be read as one list of replies only. -/
namespace Simloom.Services
open Theory

/-! ### Handlers -/

/-- A connection as its handler has it. -/
structure Port where
  reader : StreamReader
  conn : Connection
  written : Bytes
  /-- `handle` has come to its end, or something was raised in it. -/
  finished : Bool
  /-- The writer was closed. -/
  closed : Bool

/-- The loop of `handle` is left. -/
def Port.leave (p : Port) : Port := {p with finished := true, closed := true}

/-- A server with the handlers of its connections. -/
structure Wire where
  redis : SimRedis
  ports : Nat → Port

namespace Wire

def start (readers : Nat → StreamReader) : Wire :=
  ⟨.new, fun c => ⟨readers c, .new c, [], false, false⟩⟩

inductive Event where
  /-- One turn of a handler; `drain` finds the connection lost, or not. -/
  | turn (c : Nat) (lost : Bool)
  /-- The connection is reset while its handler reads. -/
  | reset (c : Nat)

/-- A command was read; what it does is done also when writing its reply raises. -/
def answer (w : Wire) (c : Nat) (lost : Bool) (command : Command) (reader : StreamReader) : Wire :=
  let done := Served.handle ⟨w.redis, (w.ports c).conn⟩ command
  let p := {w.ports c with reader := reader, conn := done.1.conn}
  let p' := (done.2.toOption.bind Reply.wire).elim {p with finished := true} fun bytes =>
    if lost then {p with written := p.written ++ bytes}.leave
    else {p with written := p.written ++ bytes}
  ⟨done.1.redis, Function.update w.ports c p'⟩

def leave (w : Wire) (c : Nat) : Wire :=
  {w with ports := Function.update w.ports c (w.ports c).leave}

/-- `handle` from one `await` of a command to the next. -/
def step (w : Wire) : Event → Option Wire
  | .turn c lost =>
    if (w.ports c).finished then none
    else some ((readCommand (w.ports c).reader).elim (w.leave c) fun read =>
      w.answer c lost read.1 read.2)
  | .reset c => if (w.ports c).finished then none else some (w.leave c)

/-! ### What the server sees -/

/-- The commands that are served, and the connections that end. -/
def call (w : Wire) : Event → List Server.Event
  | .turn c lost => (readCommand (w.ports c).reader).elim [.hangUp c] fun read =>
    .receive c read.1 ::
      if ((w.answer c lost read.1 read.2).ports c).finished then [.hangUp c] else []
  | .reset c => [.hangUp c]

def calls (w : Wire) : List Event → List Server.Event
  | [] => []
  | e :: rest => w.call e ++ (w.step e).elim [] fun w' => w'.calls rest

end Wire

/-- The bytes of what a connection was answered. -/
def wired (answers : List (Except Fault Reply)) : Bytes :=
  (answers.filterMap fun answer => answer.toOption.bind Reply.wire).flatten

/-- The commands that a connection was served. -/
def served (calls : List Server.Event) (c : Nat) : List Command :=
  (calls.filter fun e => e.conn = c).filterMap fun e => e.parts.2

/-- A stream of these commands, cut off anywhere. -/
def Coming (r : StreamReader) (commands : List Command) : Prop :=
  ∃ wire, encodeAll commands = some wire ∧ r.stream <+: wire

/-- The server has what the handlers have. -/
structure Related (w : Wire) (s : Server) : Prop where
  redis : s.redis = w.redis
  conns : ∀ c, s.conns c = (w.ports c).conn
  ended : ∀ c, c ∈ s.ended ↔ (w.ports c).finished = true

/-! ### Reading -/

theorem encodeAll_cons {command : Command} {commands : List Command} {wire : Bytes}
    (h : encodeAll (command :: commands) = some wire) :
    ∃ bytes more, encode command = some bytes ∧ encodeAll commands = some more ∧
      wire = bytes ++ more := by
  obtain ⟨items, hitems, rfl⟩ := Option.map_eq_some_iff.mp h
  obtain ⟨bytes, hbytes, more, hmore, rfl⟩ := mapM_cons_eq_some hitems
  exact ⟨bytes, more.flatten, hbytes, by rw [encodeAll, hmore]; rfl, List.flatten_cons⟩

/-- What is read is the next command, and behind it the others come. -/
theorem Coming.read {r r' : StreamReader} {commands : List Command} {command : Command}
    (h : Coming r commands) (hread : readCommand r = some (command, r')) :
    ∃ rest, commands = command :: rest ∧ Coming r' rest := by
  obtain ⟨wire, hwire, hr⟩ := h
  cases commands with
  | nil =>
    rw [← Option.some.inj hwire] at hr
    rw [readCommand_nil (List.prefix_nil.mp hr)] at hread
    cases hread
  | cons first rest =>
    obtain ⟨bytes, more, hbytes, hmore, rfl⟩ := encodeAll_cons hwire
    rcases prefix_append_cases hr with ⟨hcut, hshort⟩ | ⟨q, hq, hrest⟩
    · rw [readCommand_cut hbytes hcut hshort] at hread
      cases hread
    · obtain ⟨r₁, hfirst, hr₁⟩ := readCommand_whole hbytes hq
      rw [hread] at hfirst
      obtain ⟨rfl, rfl⟩ := Prod.mk.inj (Option.some.inj hfirst)
      exact ⟨rest, rfl, more, hmore, hr₁ ▸ hrest⟩

/-- Nothing is read only where the next command has not come whole. -/
theorem Coming.cutShort {r : StreamReader} {commands : List Command} (h : Coming r commands)
    (hread : readCommand r = none) : CutShort r.stream commands := by
  obtain ⟨wire, hwire, hr⟩ := h
  cases commands with
  | nil =>
    rw [← Option.some.inj hwire] at hr
    exact List.prefix_nil.mp hr
  | cons first rest =>
    obtain ⟨bytes, more, hbytes, hmore, rfl⟩ := encodeAll_cons hwire
    rcases prefix_append_cases hr with ⟨hcut, hshort⟩ | ⟨q, hq, _⟩
    · exact ⟨bytes, hbytes, hcut, hshort⟩
    · obtain ⟨r₁, hfirst, _⟩ := readCommand_whole hbytes hq
      rw [hread] at hfirst
      cases hfirst

/-! ### Turn by turn -/

theorem answers_append {s s' : Server} {events later : List Server.Event}
    (h : Transition.run Server.step s events = some s') (c : Nat) :
    s.answers (events ++ later) c = s.answers events c ++ s'.answers later c := by
  induction events generalizing s with
  | nil => rw [Option.some.inj h]; rfl
  | cons e rest ih =>
    obtain ⟨m, hm, hr⟩ := Transition.run_cons.mp h
    simp only [List.cons_append, Server.answers, hm, Option.elim_some, ih hr, List.append_assoc]

theorem wired_append (answers later : List (Except Fault Reply)) :
    wired (answers ++ later) = wired answers ++ wired later := by
  simp [wired]

variable {w w' : Wire} {s : Server} {e : Wire.Event}

theorem Related.leave (h : Related w s) (c : Nat) :
    ∃ s', Transition.run Server.step s [.hangUp c] = some s' ∧ Related (w.leave c) s' ∧
      ∀ d, ((w.leave c).ports d).written =
        (w.ports d).written ++ wired (s.answers [.hangUp c] d) := by
  refine ⟨{s with ended := c :: s.ended}, rfl, ⟨h.redis, fun d => ?_, fun d => ?_⟩, fun d => ?_⟩
  · by_cases hd : d = c
    · subst hd
      simp [Wire.leave, Port.leave, h.conns d]
    · simp [Wire.leave, hd, h.conns d]
  · by_cases hd : d = c
    · subst hd
      simp [Wire.leave, Port.leave]
    · simp [Wire.leave, hd, h.ended d]
  · have hnone : s.answers [.hangUp c] d = [] := by
      simp [Server.answers, Server.step, Server.answer, Server.Event.parts]
    rw [hnone]
    by_cases hd : d = c
    · subst hd
      simp [Wire.leave, Port.leave, wired]
    · simp [Wire.leave, hd, wired]

theorem wired_singleton (answer : Except Fault Reply) :
    wired [answer] = (answer.toOption.bind Reply.wire).getD [] := by
  unfold wired
  cases h : answer.toOption.bind Reply.wire <;> simp [h]

theorem answer_receive (s : Server) (c d : Nat) (command : Command) :
    s.answer (.receive c command) d = if d = c then [s.outcome c command] else [] := by
  by_cases hd : d = c
  · subst hd
    simp [Server.answer, Server.Event.conn, Server.Event.parts]
  · simp [Server.answer, Server.Event.conn, Server.Event.parts, hd]

theorem answers_hangUp (s : Server) (c d : Nat) : s.answers [.hangUp c] d = [] := by
  simp [Server.answers, Server.step, Server.answer, Server.Event.parts]

/-- What a command makes of its connection's end. -/
theorem answer_port (w : Wire) (c : Nat) (lost : Bool) (command : Command) (reader : StreamReader) :
    let done := Served.handle ⟨w.redis, (w.ports c).conn⟩ command
    let p := (w.answer c lost command reader).ports c
    p.conn = done.1.conn ∧ p.reader = reader ∧
      p.written = (w.ports c).written ++ wired [done.2] ∧
      (p.finished = false → done.2.isOk = true) := by
  simp only [Wire.answer, Function.update_self, wired_singleton]
  rcases Served.handle ⟨w.redis, (w.ports c).conn⟩ command with ⟨after, e | reply⟩
  · simp [Except.toOption]
  · simp only [Except.toOption, Option.bind_some]
    cases reply.wire with
    | none => simp
    | some bytes => cases lost <;> simp [Port.leave, Except.isOk, Except.toBool]

theorem answer_others {c d : Nat} (lost : Bool) (command : Command) (reader : StreamReader)
    (hd : d ≠ c) : (w.answer c lost command reader).ports d = w.ports d :=
  Function.update_of_ne hd _ _

/-- A command that was read is received. -/
theorem Related.answer (h : Related w s) {c : Nat} (hopen : (w.ports c).finished = false)
    (lost : Bool) (command : Command) (reader : StreamReader) :
    ∃ s', Transition.run Server.step s (.receive c command ::
        if ((w.answer c lost command reader).ports c).finished then [.hangUp c] else []) = some s' ∧
      Related (w.answer c lost command reader) s' ∧
      ∀ d, ((w.answer c lost command reader).ports d).written =
        (w.ports d).written ++ wired (s.answers (.receive c command ::
          if ((w.answer c lost command reader).ports c).finished then [.hangUp c] else []) d) := by
  have hnot : c ∉ s.ended := fun hc => by simp [(h.ended c).mp hc] at hopen
  have hstep : s.step (.receive c command) = some (s.after c command) := if_neg hnot
  have hserved : s.served c = ⟨w.redis, (w.ports c).conn⟩ := by
    rw [Server.served, h.redis, h.conns c]
  have hothers : ∀ d, d ≠ c → (w.answer c lost command reader).ports d = w.ports d :=
    fun d hd => answer_others lost command reader hd
  obtain ⟨hconn, _, hwritten, hok⟩ := answer_port w c lost command reader
  have hredis : (s.after c command).redis = (w.answer c lost command reader).redis := by
    simp only [Server.after, hserved, Wire.answer]
  have hconns : ∀ d, (s.after c command).conns d =
      ((w.answer c lost command reader).ports d).conn := by
    intro d
    simp only [Server.after, hserved]
    by_cases hd : d = c
    · subst hd
      rw [Function.update_self, hconn]
    · rw [Function.update_of_ne hd, hothers d hd, h.conns d]
  have hended : ∀ d, d ≠ c →
      (d ∈ (s.after c command).ended ↔
        ((w.answer c lost command reader).ports d).finished = true) := by
    intro d hd
    rw [hothers d hd, ← h.ended d]
    simp only [Server.after]
    split
    · exact Iff.rfl
    · simp [hd]
  have hanswers : ∀ more d, (∀ t : Server, t.answers more d = []) →
      ((w.answer c lost command reader).ports d).written =
        (w.ports d).written ++ wired (s.answers (.receive c command :: more) d) := by
    intro more d hmore
    simp only [Server.answers, hstep, Option.elim_some, hmore, List.append_nil, answer_receive,
      Server.outcome]
    by_cases hd : d = c
    · subst hd
      rw [if_pos rfl, hserved, hwritten]
    · rw [if_neg hd, hothers d hd]
      simp [wired]
  cases hp : ((w.answer c lost command reader).ports c).finished with
  | true =>
    refine ⟨{s.after c command with ended := c :: (s.after c command).ended},
      Transition.run_cons.mpr ⟨_, hstep, rfl⟩, ⟨hredis, hconns, fun d => ?_⟩,
      fun d => hanswers _ d fun t => answers_hangUp t c d⟩
    by_cases hd : d = c
    · subst hd
      simp [hp]
    · simpa [hd] using hended d hd
  | false =>
    refine ⟨s.after c command, Transition.run_cons.mpr ⟨_, hstep, rfl⟩,
      ⟨hredis, hconns, fun d => ?_⟩, fun d => hanswers _ d fun t => rfl⟩
    by_cases hd : d = c
    · subst hd
      have hout : ((s.served d).handle command).2.isOk = true := by
        rw [hserved]
        exact hok hp
      simp [Server.after, hout, hnot, hp]
    · exact hended d hd

theorem Related.step (h : Related w s) (hstep : w.step e = some w') :
    ∃ s', Transition.run Server.step s (w.call e) = some s' ∧ Related w' s' ∧
      ∀ c, (w'.ports c).written = (w.ports c).written ++ wired (s.answers (w.call e) c) := by
  cases e with
  | reset c =>
    simp only [Wire.step, Option.ite_none_left_eq_some, Option.some.injEq] at hstep
    exact hstep.2 ▸ h.leave c
  | turn c lost =>
    simp only [Wire.step, Option.ite_none_left_eq_some, Option.some.injEq] at hstep
    obtain ⟨hopen, rfl⟩ := hstep
    simp only [Wire.call]
    cases readCommand (w.ports c).reader with
    | none => exact h.leave c
    | some read => exact h.answer (Bool.eq_false_iff.mpr hopen) lost read.1 read.2

/-- The server with its handlers is the server that takes whole commands. -/
theorem Related.run (h : Related w s) {events : List Wire.Event}
    (hrun : Transition.run Wire.step w events = some w') :
    ∃ s', Transition.run Server.step s (w.calls events) = some s' ∧ Related w' s' ∧
      ∀ c, (w'.ports c).written = (w.ports c).written ++ wired (s.answers (w.calls events) c) := by
  induction events generalizing w s with
  | nil =>
    rw [← Option.some.inj hrun]
    exact ⟨s, rfl, h, fun c => by simp [Wire.calls, Server.answers, wired]⟩
  | cons e rest ih =>
    obtain ⟨m, hm, hr⟩ := Transition.run_cons.mp hrun
    obtain ⟨s₁, hs₁, hrel, hfirst⟩ := h.step hm
    obtain ⟨s₂, hs₂, hlast, hlater⟩ := ih hrel hr
    simp only [Wire.calls, hm, Option.elim_some]
    refine ⟨s₂, Transition.run_append.mpr ⟨s₁, hs₁, hs₂⟩, hlast, fun c => ?_⟩
    rw [answers_append hs₁, wired_append, hlater, hfirst, List.append_assoc]

/-! ### What is served -/

theorem served_append (calls later : List Server.Event) (c : Nat) :
    served (calls ++ later) c = served calls c ++ served later c := by
  simp [served]

theorem served_hangUp (c d : Nat) : served [.hangUp c] d = [] := by
  unfold served
  by_cases hd : c = d <;> simp [Server.Event.conn, Server.Event.parts, hd]

/-- A turn serves its connection the next command, and leaves the others' to come. -/
theorem served_call (hstep : w.step e = some w') {c : Nat} {commands : List Command}
    (hcoming : Coming (w.ports c).reader commands) :
    ∃ rest, commands = served (w.call e) c ++ rest ∧ Coming (w'.ports c).reader rest := by
  have hleave : ∀ d, ((w.leave d).ports c).reader = (w.ports c).reader := by
    intro d
    by_cases hd : c = d
    · subst hd
      simp [Wire.leave, Port.leave]
    · simp [Wire.leave, hd]
  cases e with
  | reset d =>
    simp only [Wire.step, Option.ite_none_left_eq_some, Option.some.injEq] at hstep
    refine ⟨commands, by rw [Wire.call, served_hangUp, List.nil_append], ?_⟩
    rwa [← hstep.2, hleave]
  | turn d lost =>
    simp only [Wire.step, Option.ite_none_left_eq_some, Option.some.injEq] at hstep
    obtain ⟨_, rfl⟩ := hstep
    simp only [Wire.call]
    cases hread : readCommand (w.ports d).reader with
    | none =>
      refine ⟨commands, by rw [Option.elim_none, served_hangUp, List.nil_append], ?_⟩
      rwa [Option.elim_none, hleave]
    | some read =>
      simp only [Option.elim_some]
      have hend : served (if ((w.answer d lost read.1 read.2).ports d).finished
          then [.hangUp d] else []) c = [] := by
        split
        · exact served_hangUp d c
        · rfl
      rw [← List.singleton_append, served_append, hend, List.append_nil]
      by_cases hd : c = d
      · subst hd
        obtain ⟨rest, rfl, hrest⟩ := hcoming.read hread
        refine ⟨rest, by simp [served, Server.Event.conn, Server.Event.parts], ?_⟩
        rwa [(answer_port w c lost read.1 read.2).2.1]
      · refine ⟨commands, ?_, ?_⟩
        · simp [served, Server.Event.conn, Server.Event.parts, Ne.symm hd]
        · rwa [answer_others lost read.1 read.2 hd]

theorem served_calls {events : List Wire.Event}
    (hrun : Transition.run Wire.step w events = some w') {c : Nat} {commands : List Command}
    (hcoming : Coming (w.ports c).reader commands) :
    ∃ rest, commands = served (w.calls events) c ++ rest ∧ Coming (w'.ports c).reader rest := by
  induction events generalizing w commands with
  | nil => exact ⟨commands, rfl, Option.some.inj hrun ▸ hcoming⟩
  | cons e rest ih =>
    obtain ⟨m, hm, hr⟩ := Transition.run_cons.mp hrun
    obtain ⟨more, rfl, hmore⟩ := served_call hm hcoming
    obtain ⟨left, rfl, hleft⟩ := ih hr hmore
    refine ⟨left, ?_, hleft⟩
    simp only [Wire.calls, hm, Option.elim_some, served_append, List.append_assoc]

theorem wired_replies {replies : List Reply} {parts : List Bytes}
    (h : wireAll replies = some parts) : wired (replies.map .ok) = parts.flatten := by
  induction replies generalizing parts with
  | nil => rw [← Option.some.inj h]; rfl
  | cons reply rest ih =>
    obtain ⟨bytes, more, hbytes, hmore, rfl⟩ := wireAll_cons h
    rw [List.map_cons, ← List.singleton_append, wired_append, wired_singleton, ih hmore]
    simp [Except.toOption, hbytes]

theorem related_start (readers : Nat → StreamReader) : Related (Wire.start readers) .start :=
  ⟨rfl, fun _ => rfl, fun c => by simp [Wire.start, Server.start]⟩

/-- What connection `c`, which sends these commands, has seen of a run in which the server was
handed whole commands as `calls` lists them. -/
structure Answered (commands : List Command) (calls : List Server.Event) (w : Wire)
    (c : Nat) : Prop where
  inOrder : ∃ rest, commands = served calls c ++ rest ∧
    (readCommand (w.ports c).reader = none → CutShort (w.ports c).reader.stream rest)
  bytes : (w.ports c).written = wired (Server.start.answers calls c)
  readable : ∀ replies others parts parts', Server.start.answers calls c = replies.map .ok →
    wireAll replies = some parts → wireAll others = some parts' →
    (∀ reply ∈ replies, reply.Framed) → (∀ other ∈ others, other.Framed) →
    parts'.flatten <+: (w.ports c).written → others <+: replies

/-- **On the wire, `SimRedis` is the server that takes whole commands.** Whatever the chunks and
the order in which handlers get their turns, each connection is served its commands in order, up
to one that has not come whole; the server is left as it leaves it there; and what was written is
the bytes of the replies, which can be read as these replies only. -/
theorem wire_refines {readers : Nat → StreamReader} {commands : Nat → List Command}
    (hcoming : ∀ c, Coming (readers c) (commands c)) {events : List Wire.Event} {w : Wire}
    (hrun : Transition.run Wire.step (Wire.start readers) events = some w) :
    ∃ calls s, Transition.run Server.step Server.start calls = some s ∧ Related w s ∧
      ∀ c, Answered (commands c) calls w c := by
  obtain ⟨s, hs, hrelated, hwritten⟩ := (related_start readers).run hrun
  refine ⟨_, s, hs, hrelated, fun c => ?_⟩
  have hbytes : (w.ports c).written =
      wired (Server.start.answers ((Wire.start readers).calls events) c) := hwritten c
  refine ⟨?_, hbytes, ?_⟩
  · obtain ⟨rest, hrest, hleft⟩ := served_calls hrun (hcoming c)
    exact ⟨rest, hrest, hleft.cutShort⟩
  · intro replies others parts parts' hanswers hparts hparts' hframed hothers hbegins
    rw [hbytes, hanswers, wired_replies hparts] at hbegins
    exact replies_free hothers hframed hparts' hparts hbegins

/-- One connection sets a key in two chunks, another asks for it and is cut off. -/
def twoReaders : Nat → StreamReader
  | 0 => ⟨ascii "*3\r\n$3\r\nSET\r\n$1\r\nk\r", [ascii "\n$2\r\n\r\n\r\n"]⟩
  | 1 => ⟨[], [ascii "*2\r\n$3\r\nGET\r\n$1\r\nk\r\n*1\r\n$4\r\nPI"]⟩
  | _ => ⟨[], []⟩

def twoClients : Nat → List Command
  | 0 => [[ascii "SET", ascii "k", ascii "\r\n"]]
  | 1 => [[ascii "GET", ascii "k"], [ascii "PING"]]
  | _ => []

theorem coming_two : ∀ c, Coming (twoReaders c) (twoClients c)
  | 0 => ⟨ascii "*3\r\n$3\r\nSET\r\n$1\r\nk\r\n$2\r\n\r\n\r\n", by decide +kernel, by decide +kernel⟩
  | 1 => ⟨ascii "*2\r\n$3\r\nGET\r\n$1\r\nk\r\n*1\r\n$4\r\nPING\r\n", by decide +kernel,
      by decide +kernel⟩
  | _ + 2 => ⟨[], rfl, List.prefix_rfl⟩

theorem wire_refines_two : ∃ w, Transition.run Wire.step (Wire.start twoReaders)
      [.turn 0 false, .turn 1 false, .turn 1 false] = some w ∧
    ∃ calls s, Transition.run Server.step Server.start calls = some s ∧ Related w s ∧
      ∀ c, Answered (twoClients c) calls w c := by
  have hrun : (Transition.run Wire.step (Wire.start twoReaders)
      [.turn 0 false, .turn 1 false, .turn 1 false]).isSome = true := by decide +kernel
  obtain ⟨w, hw⟩ := Option.isSome_iff_exists.mp hrun
  exact ⟨w, hw, wire_refines coming_two hw⟩

end Simloom.Services
