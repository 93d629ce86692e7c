import Simloom.Format.Canonical
import Simloom.Theory.Lines
import Simloom.Run.Result

/-! The event log: what `emit` admits, and the text it is kept as.

A log is a header line and one line per event, each the canonical text of one
object. The events are numbered as they come, and three names are the log's own. -/
namespace Simloom
open Theory Theory.Lexical Theory.Lines

/-- A dict with string keys. -/
abbrev Fields := List (String × Json)

/-- `EventLog`: the events in order, and the metadata of the header. -/
structure EventLog where
  events : List Fields
  metadata : Fields

def eventLogFormat : String := "simloom-events"

def eventLogFormatVersion : Int := 1

/-- The names `emit` sets itself. -/
def reservedFields : List String := ["seq", "kind", "t"]

def reservedField (key : String) : PyException := ⟨valueError, "reserved event field: " ++ key⟩

/-- What `emit` sets itself: the event's number, kind and time. -/
def Event.own (e : Event) (seq : Nat) : Fields :=
  [("seq", .int seq), ("kind", .str e.kind), ("t", .float e.t)]

/-- The event object of a call. -/
def Event.object (e : Event) (seq : Nat) : Fields := e.own seq ++ e.fields

/-- None of the fields has a name of the log's own. -/
def Event.admissible (e : Event) : Bool := e.fields.all fun p => p.1 ∉ reservedFields

namespace EventLog

/-- Set the fields in turn; a name that is taken is refused. -/
def fill (event : Fields) : Fields → Except PyException Fields
  | [] => .ok event
  | (key, value) :: rest =>
    if key ∈ event.map Prod.fst then .error (reservedField key) else fill (event ++ [(key, value)]) rest

/-- Append one event. Keywords are distinct, and that `kind` and `t` are among them is
refused before the body runs. -/
def emit (log : EventLog) (e : Event) : Except PyException EventLog :=
  (fill (e.own log.events.length) e.fields).map fun event =>
    { log with events := log.events ++ [event] }

/-- The log after a call that may have raised. -/
def attempt (log : EventLog) (e : Event) : EventLog :=
  match log.emit e with
  | .ok log => log
  | .error _ => log

/-- The log after a sequence of calls. -/
def emitAll (log : EventLog) (calls : List Event) : EventLog := calls.foldl attempt log

/-- `header()`: the format and the version, unless the metadata overrides them. -/
def header (log : EventLog) : Fields :=
  log.metadata.foldl (fun fields p => Dict.put p.1 p.2 fields)
    [("format", .str eventLogFormat), ("version", .int eventLogFormatVersion)]

variable (F : FloatText)

def eventLines (log : EventLog) : List (List Char) :=
  log.events.map fun event => Json.canonical F (.obj event)

def toJsonl (log : EventLog) : List Char :=
  ['\n'].intercalate (Json.canonical F (.obj log.header) :: log.eventLines F) ++ ['\n']

/-- What `digest` feeds its hash: each line and a line feed. -/
def digestInput (log : EventLog) : List Char := (log.eventLines F).flatMap fun line => line ++ ['\n']

/-- `digest()`, for a hash of texts. -/
def digest (sha256 : List Char → String) (log : EventLog) : String := sha256 (log.digestInput F)

end EventLog

/-! ### What a call appends -/

namespace EventLog

theorem fill_ok {event fields : Fields} (h : ((event ++ fields).map Prod.fst).Nodup) :
    fill event fields = .ok (event ++ fields) := by
  induction fields generalizing event with
  | nil => rw [fill, List.append_nil]
  | cons p rest ih =>
    have hnot : p.1 ∉ event.map Prod.fst := fun hmem => by
      rw [List.map_append, List.map_cons] at h
      exact (List.nodup_append.mp h).2.2 p.1 hmem p.1 List.mem_cons_self rfl
    rw [fill, if_neg hnot, ih (by simpa using h)]
    simp

theorem fill_error {event fields : Fields} {key : String} (hevent : key ∈ event.map Prod.fst)
    (hkey : key ∈ fields.map Prod.fst) : ∃ e, fill event fields = .error e := by
  induction fields generalizing event with
  | nil => simp at hkey
  | cons p rest ih =>
    rw [fill]
    split
    · exact ⟨_, rfl⟩
    next hnot =>
      rw [List.map_cons, List.mem_cons] at hkey
      have hrest := hkey.resolve_left fun h => hnot (h ▸ hevent)
      exact ih (by simp [hevent]) hrest

theorem nodup_object {e : Event} (hkeys : (e.fields.map Prod.fst).Nodup) (h : e.admissible = true)
    (seq : Nat) : ((e.object seq).map Prod.fst).Nodup := by
  have hnot : ∀ key ∈ reservedFields, key ∉ e.fields.map Prod.fst := fun key hmem hkey => by
    obtain ⟨p, hp, rfl⟩ := List.mem_map.mp hkey
    exact absurd hmem (by simpa using List.all_eq_true.mp h p hp)
  have hseq := hnot "seq" (by decide)
  have hkind := hnot "kind" (by decide)
  have ht := hnot "t" (by decide)
  simp only [Event.object, Event.own, List.cons_append, List.nil_append, List.map_cons, List.nodup_cons, List.mem_cons, not_or]
  exact ⟨⟨by decide, by decide, hseq⟩, ⟨by decide, hkind⟩, ht, hkeys⟩

/-- A call is refused exactly when a keyword has a reserved name. -/
theorem attempt_eq {e : Event} (hkeys : (e.fields.map Prod.fst).Nodup) (log : EventLog) :
    log.attempt e = if e.admissible then
      { log with events := log.events ++ [e.object log.events.length] } else log := by
  cases h : e.admissible with
  | true =>
    rw [attempt, emit, fill_ok (nodup_object hkeys h log.events.length)]
    rfl
  | false =>
    obtain ⟨p, hp, hres⟩ := List.all_eq_false.mp h
    have hmem : p.1 ∈ reservedFields := by simpa using hres
    have hown : p.1 ∈ (e.own log.events.length).map Prod.fst := hmem
    obtain ⟨err, herr⟩ := fill_error hown (List.mem_map_of_mem hp)
    rw [attempt, emit, herr]
    rfl

/-- The events are the calls that were admitted, in order and numbered densely. -/
theorem events_emitAll {calls : List Event} (hkeys : ∀ e ∈ calls, (e.fields.map Prod.fst).Nodup)
    (log : EventLog) : (log.emitAll calls).events =
      log.events ++ (calls.filter Event.admissible).mapIdx fun i e => e.object (log.events.length + i) := by
  induction calls generalizing log with
  | nil => simp [emitAll]
  | cons e rest ih =>
    have hrest := ih (fun x hx => hkeys x (List.mem_cons_of_mem e hx)) (log.attempt e)
    show ((log.attempt e).emitAll rest).events = _
    rw [hrest, attempt_eq (hkeys e List.mem_cons_self)]
    cases h : e.admissible with
    | true =>
      rw [List.filter_cons_of_pos h, List.mapIdx_cons]
      simp [Nat.add_assoc, Nat.add_comm 1]
    | false => rw [List.filter_cons_of_neg (by simp [h])]; rfl

theorem metadata_attempt (log : EventLog) (e : Event) : (log.attempt e).metadata = log.metadata := by
  unfold attempt emit
  cases fill (e.own log.events.length) e.fields <;> rfl

theorem metadata_emitAll (calls : List Event) (log : EventLog) :
    (log.emitAll calls).metadata = log.metadata := by
  induction calls generalizing log with
  | nil => rfl
  | cons e rest ih => exact (ih (log.attempt e)).trans (metadata_attempt log e)

end EventLog

/-! ### The text -/

variable {F : FloatText}

/-- A call with a float for its time and values that JSON can hold. Keywords are
distinct. -/
def Event.Proper (F : FloatText) (e : Event) : Prop := F.isFloat e.t ∧ (Json.obj e.fields).Proper F

theorem Event.Proper.object {e : Event} (h : e.Proper F) (hadm : e.admissible = true) (seq : Nat) :
    (Json.obj (e.object seq)).Proper F :=
  ⟨EventLog.nodup_object h.2.1 hadm seq, trivial, trivial, h.1, h.2.2⟩

namespace EventLog

theorem header_proper {log : EventLog} (h : (Json.obj log.metadata).Proper F) :
    (Json.obj log.header).Proper F := by
  suffices ∀ fields : Fields, (Json.obj fields).Proper F → (Json.obj (log.metadata.foldl
      (fun fields p => Dict.put p.1 p.2 fields) fields)).Proper F from
    this _ ⟨by decide, trivial, trivial, trivial⟩
  have hvalues := (Json.properFields_iff _).mp h.2
  generalize log.metadata = metadata at hvalues
  induction metadata with
  | nil => exact fun fields hfields => hfields
  | cons p rest ih =>
    intro fields hfields
    refine ih (fun q hq => hvalues q (List.mem_cons_of_mem p hq)) _
      ⟨Dict.nodup_put p.1 p.2 hfields.1, (Json.properFields_iff _).mpr fun q hq => ?_⟩
    rcases Dict.mem_of_mem_put hq with rfl | hq
    · exact hvalues _ List.mem_cons_self
    · exact (Json.properFields_iff _).mp hfields.2 q hq

/-- Whatever breaks a line, a canonical text is one line. -/
theorem unbroken_canonical {isBreak : Char → Bool} (hbreak : ∀ c, printable c = true → isBreak c = false)
    {v : Json} (hv : v.Proper F) : Unbroken isBreak (Json.canonical F v) := fun c hc => by
  have hprint := Json.printable_write (l := .compact) rfl v.sortKeys 0 hv.sortKeys c hc
  refine ⟨hbreak c hprint, fun h => ?_⟩
  rw [h] at hprint
  exact absurd hprint (by decide)

/-- The events of a log that was filled by calls are proper. -/
theorem emitAll_proper {calls : List Event} (h : ∀ e ∈ calls, e.Proper F) (metadata : Fields) :
    ∀ event ∈ (emitAll ⟨[], metadata⟩ calls).events, (Json.obj event).Proper F := by
  rw [events_emitAll fun e he => (h e he).2.1]
  intro event hevent
  simp only [List.nil_append, List.mem_mapIdx] at hevent
  obtain ⟨i, hi, rfl⟩ := hevent
  have hmem := List.mem_filter.mp (List.getElem_mem hi)
  exact (h _ hmem.1).object hmem.2 _

/-- Events with the same lines are the same up to the order of members. -/
theorem lines_inj {a b : List Fields} (ha : ∀ event ∈ a, (Json.obj event).Proper F)
    (hb : ∀ event ∈ b, (Json.obj event).Proper F) :
    (a.map fun event => Json.canonical F (.obj event)) = (b.map fun event => Json.canonical F (.obj event)) ↔
      (a.map fun event => (Json.obj event).sortKeys) = b.map fun event => (Json.obj event).sortKeys := by
  induction a generalizing b with
  | nil => cases b <;> simp
  | cons x a ih =>
    cases b with
    | nil => simp
    | cons y b =>
      rw [List.map_cons, List.map_cons, List.map_cons, List.map_cons, List.cons.injEq, List.cons.injEq,
        Json.canonical_inj (ha x List.mem_cons_self) (hb y List.mem_cons_self),
        ih (fun e he => ha e (List.mem_cons_of_mem x he)) fun e he => hb e (List.mem_cons_of_mem y he)]

/-- Two logs feed the hash the same text exactly when they hold the same events, up to
the order of each object's members. -/
theorem digestInput_inj {a b : EventLog} (ha : ∀ event ∈ a.events, (Json.obj event).Proper F)
    (hb : ∀ event ∈ b.events, (Json.obj event).Proper F) :
    a.digestInput F = b.digestInput F ↔
      (a.events.map fun event => (Json.obj event).sortKeys) =
        b.events.map fun event => (Json.obj event).sortKeys := by
  have hbreak : ∀ c, printable c = true → (c == '\n') = false := fun c hc => by
    rw [beq_eq_false_iff_ne]
    rintro rfl
    exact absurd hc (by decide)
  have hlines : ∀ log : EventLog, (∀ event ∈ log.events, (Json.obj event).Proper F) →
      ∀ line ∈ log.eventLines F, Unbroken (· == '\n') line := fun log hlog line hline => by
    obtain ⟨event, hevent, rfl⟩ := List.mem_map.mp hline
    exact unbroken_canonical hbreak (hlog event hevent)
  rw [digestInput, digestInput, ← unlines, ← unlines, unlines_inj (by decide) (hlines a ha) (hlines b hb)]
  exact lines_inj ha hb

end EventLog
end Simloom
