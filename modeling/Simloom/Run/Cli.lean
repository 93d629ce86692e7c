import Simloom.Format.Equality
import Simloom.Run.EventLog

/-! The command line over event logs: reading one back, what changed, and where two
diverge. -/
namespace Simloom
open Theory Theory.Lexical Theory.Lines

/-! ### Reading a log -/

/-- Where `str.splitlines` breaks a line, besides `"\r\n"`. -/
def lineBreak (c : Char) : Bool :=
  c ∈ ['\n', '\r', '\x0b', '\x0c', '\x1c', '\x1d', '\x1e', '\u0085', '\u2028', '\u2029']

/-- `str.isspace` on one character. -/
def isSpace (c : Char) : Bool :=
  (9 ≤ c.toNat && c.toNat ≤ 13) || (28 ≤ c.toNat && c.toNat ≤ 32) ||
    (0x2000 ≤ c.toNat && c.toNat ≤ 0x200a) ||
    c ∈ ['\u0085', '\u00a0', '\u1680', '\u2028', '\u2029', '\u202f', '\u205f', '\u3000']

/-- The lines that `strip` leaves something of. -/
def logLines (text : List Char) : List (List Char) :=
  (split lineBreak text).filter fun line => line.any fun c => !isSpace c

/-- `load_log`: the header and the events of a file's text; `none` where a line is no
JSON. -/
def loadLog (F : FloatText) (text : List Char) : Option (Json × List Json) :=
  match logLines text with
  | [] => some (.obj [], [])
  | header :: rest => (Json.loads F header).bind fun h => (rest.mapM (Json.loads F)).map fun es => (h, es)

variable {F : FloatText}

theorem lineBreak_of_printable (c : Char) (h : printable c = true) : lineBreak c = false := by
  rw [lineBreak, decide_eq_false_iff_not]
  intro hmem
  simp only [List.mem_cons, List.not_mem_nil, or_false] at hmem
  rcases hmem with rfl | rfl | rfl | rfl | rfl | rfl | rfl | rfl | rfl | rfl <;>
    exact absurd h (by decide)

/-- A line that holds an object is not blank. -/
theorem canonical_not_blank (fields : Fields) :
    (Json.canonical F (.obj fields)).any (fun c => !isSpace c) = true := by
  have hhead : ∃ rest, Json.canonical F (.obj fields) = '{' :: rest := by
    rw [Json.canonical, Json.sortKeys]
    cases (Json.sortFields fields).mergeSort Json.keyLe with
    | nil => exact ⟨_, rfl⟩
    | cons p rest => exact ⟨_, rfl⟩
  obtain ⟨rest, hrest⟩ := hhead
  rw [hrest, List.any_cons]
  rfl

theorem mapM_loads {events : List Fields} (h : ∀ event ∈ events, (Json.obj event).Proper F) :
    ((events.map fun event => Json.canonical F (.obj event)).mapM (Json.loads F)) =
      some (events.map fun event => (Json.obj event).sortKeys) := by
  induction events with
  | nil => rfl
  | cons event rest ih =>
    rw [List.map_cons, List.mapM_cons, Json.loads_canonical (h event List.mem_cons_self),
      ih fun e he => h e (List.mem_cons_of_mem event he)]
    rfl

/-- The text of a log reads back as its header and its events, keys sorted. -/
theorem loadLog_toJsonl {log : EventLog} (hmeta : (Json.obj log.metadata).Proper F)
    (hevents : ∀ event ∈ log.events, (Json.obj event).Proper F) :
    loadLog F (log.toJsonl F) =
      some ((Json.obj log.header).sortKeys, log.events.map fun event => (Json.obj event).sortKeys) := by
  have hheader := EventLog.header_proper hmeta
  have hlines : logLines (log.toJsonl F) =
      Json.canonical F (.obj log.header) :: log.eventLines F := by
    rw [logLines, EventLog.toJsonl, intercalate_eq, split_unlines (by decide)]
    · apply List.filter_eq_self.mpr
      intro line hline
      rcases List.mem_cons.mp hline with rfl | hline
      · exact canonical_not_blank log.header
      · obtain ⟨event, -, rfl⟩ := List.mem_map.mp hline
        exact canonical_not_blank event
    · intro line hline
      rcases List.mem_cons.mp hline with rfl | hline
      · exact EventLog.unbroken_canonical lineBreak_of_printable hheader
      · obtain ⟨event, hevent, rfl⟩ := List.mem_map.mp hline
        exact EventLog.unbroken_canonical lineBreak_of_printable (hevents event hevent)
  rw [loadLog, hlines]
  simp only [Json.loads_canonical hheader, EventLog.eventLines, mapM_loads hevents, Option.bind_some,
    Option.map_some]

/-- Whatever was emitted, the file of the log reads back as its header and the admitted
calls in their order, numbered by their places, up to the order of members. -/
theorem loadLog_emitted {metadata : Fields} (hmeta : (Json.obj metadata).Proper F) {calls : List Event}
    (hcalls : ∀ e ∈ calls, e.Proper F) :
    loadLog F ((EventLog.emitAll ⟨[], metadata⟩ calls).toJsonl F) =
      some ((Json.obj (EventLog.header ⟨[], metadata⟩)).sortKeys,
        (calls.filter Event.admissible).mapIdx fun i e => (Json.obj (e.object i)).sortKeys) := by
  have hmetadata := EventLog.metadata_emitAll calls ⟨[], metadata⟩
  have hevents := EventLog.events_emitAll (fun e he => (hcalls e he).2.1) ⟨[], metadata⟩
  have hheader : (EventLog.emitAll ⟨[], metadata⟩ calls).header = EventLog.header ⟨[], metadata⟩ := by
    rw [EventLog.header, hmetadata, ← EventLog.header]
  rw [loadLog_toJsonl (by rw [hmetadata]; exact hmeta) (EventLog.emitAll_proper hcalls metadata),
    hheader, hevents]
  congr 2
  apply List.ext_getElem <;> simp

/-- An event, one that takes a name of the log's own, and another event. -/
def threeCalls : List Event :=
  [⟨"observe", 1, [("name", .str "x"), ("value", .int 7)]⟩, ⟨"note", 2, [("seq", .null)]⟩,
    ⟨"observe", 3, [("name", .str "x"), ("value", .bool true)]⟩]

theorem threeCalls_proper : ∀ e ∈ threeCalls, e.Proper .whole := by
  intro e he
  simp only [threeCalls, List.mem_cons, List.not_mem_nil, or_false] at he
  rcases he with rfl | rfl | rfl <;>
    simp [Event.Proper, Json.Proper, Json.ProperFields, FloatText.whole]

theorem loadLog_threeCalls :
    loadLog .whole ((EventLog.emitAll ⟨[], [("seed", .int 5)]⟩ threeCalls).toJsonl .whole) =
      some ((Json.obj (EventLog.header ⟨[], [("seed", .int 5)]⟩)).sortKeys,
        (threeCalls.filter Event.admissible).mapIdx fun i e => (Json.obj (e.object i)).sortKeys) :=
  loadLog_emitted (by simp [Json.Proper, Json.ProperFields]) threeCalls_proper

/-! ### Where two logs diverge -/

/-- The loop of `first_divergence`, from event number `i` on. -/
def firstUnequal (i : Nat) : List Json → List Json → Option Nat
  | x :: a, y :: b => if !Json.same x y then some i else firstUnequal (i + 1) a b
  | _, _ => none

/-- `first_divergence`. -/
def firstDivergence (a b : List Json) : Option Nat :=
  match firstUnequal 0 a b with
  | some i => some i
  | none => if a.length ≠ b.length then some (min a.length b.length) else none

/-- Two logs agree on their first `i` events. -/
def AgreeBelow (i : Nat) (a b : List Json) : Prop :=
  List.Forall₂ (fun x y => Json.same x y = true) (a.take i) (b.take i)

/-- They agree on the first `i` events and not on the next one, where both have it. -/
structure DivergeAt (i : Nat) (a b : List Json) : Prop where
  agree : AgreeBelow i a b
  left : i ≤ a.length
  right : i ≤ b.length
  unequal : ∀ x ∈ a[i]?, ∀ y ∈ b[i]?, Json.same x y = false
  more : i < a.length ∨ i < b.length

theorem forall₂_same {a b : List Json} (ha : ∀ v ∈ a, v.Unique) (hb : ∀ v ∈ b, v.Unique) :
    List.Forall₂ (fun x y => Json.same x y = true) a b ↔ a.map Json.byValue = b.map Json.byValue := by
  induction a generalizing b with
  | nil => cases b <;> simp
  | cons x a ih =>
    cases b with
    | nil => simp
    | cons y b =>
      rw [List.forall₂_cons, List.map_cons, List.map_cons, List.cons.injEq,
        Json.same_iff (ha x List.mem_cons_self) (hb y List.mem_cons_self),
        ih (fun v hv => ha v (List.mem_cons_of_mem x hv)) fun v hv => hb v (List.mem_cons_of_mem y hv)]

theorem firstUnequal_cases (a b : List Json) (start : Nat) :
    (firstUnequal start a b = none ∧ AgreeBelow (min a.length b.length) a b) ∨
    ∃ i, firstUnequal start a b = some (start + i) ∧ AgreeBelow i a b ∧
      ∃ x y, a[i]? = some x ∧ b[i]? = some y ∧ Json.same x y = false := by
  induction a generalizing b start with
  | nil => exact .inl ⟨by simp [firstUnequal], by simp [AgreeBelow]⟩
  | cons x a ih =>
    cases b with
    | nil => exact .inl ⟨by simp [firstUnequal], by simp [AgreeBelow]⟩
    | cons y b =>
      rw [firstUnequal]
      cases hxy : Json.same x y with
      | false => exact .inr ⟨0, rfl, by simp [AgreeBelow], x, y, rfl, rfl, hxy⟩
      | true =>
        rcases ih b (start + 1) with ⟨hnone, hagree⟩ | ⟨i, hsome, hagree, hdiffer⟩
        · refine .inl ⟨hnone, ?_⟩
          rw [List.length_cons, List.length_cons, Nat.add_min_add_right]
          exact .cons hxy hagree
        · refine .inr ⟨i + 1, ?_, .cons hxy hagree, hdiffer⟩
          rw [show start + (i + 1) = start + 1 + i by omega]
          exact hsome

theorem AgreeBelow.same {i j : Nat} {a b : List Json} (h : AgreeBelow j a b) (hij : i < j)
    {x y : Json} (hx : a[i]? = some x) (hy : b[i]? = some y) : Json.same x y = true := by
  obtain ⟨hi, rfl⟩ := List.getElem?_eq_some_iff.mp hx
  obtain ⟨hi', rfl⟩ := List.getElem?_eq_some_iff.mp hy
  have hget := List.forall₂_iff_get.mp h
  have hpoint := hget.2 i (by rw [List.length_take]; omega) (by rw [List.length_take]; omega)
  simpa using hpoint

theorem DivergeAt.unique {i j : Nat} {a b : List Json} (hi : DivergeAt i a b) (hj : DivergeAt j a b) :
    i = j := by
  have hle : ∀ {i j}, DivergeAt i a b → DivergeAt j a b → ¬ i < j := by
    intro i j hi hj hlt
    have hx := List.getElem?_eq_getElem (show i < a.length from Nat.lt_of_lt_of_le hlt hj.left)
    have hy := List.getElem?_eq_getElem (show i < b.length from Nat.lt_of_lt_of_le hlt hj.right)
    have hsame := hj.agree.same hlt hx hy
    rw [hi.unequal _ hx _ hy] at hsame
    exact absurd hsame (by decide)
  have h1 := hle hi hj
  have h2 := hle hj hi
  omega

theorem agree_all {a b : List Json} (hlen : a.length = b.length) :
    AgreeBelow (min a.length b.length) a b ↔ List.Forall₂ (fun x y => Json.same x y = true) a b := by
  rw [AgreeBelow, ← hlen, Nat.min_self, List.take_length, hlen, List.take_length]

/-- Either the logs are equal, event by event, or `first_divergence` is where they part. -/
theorem firstDivergence_cases (a b : List Json) :
    (firstDivergence a b = none ∧ List.Forall₂ (fun x y => Json.same x y = true) a b) ∨
    ∃ i, firstDivergence a b = some i ∧ DivergeAt i a b := by
  rcases firstUnequal_cases a b 0 with ⟨hnone, hagree⟩ | ⟨i, hsome, hagree, x, y, hx, hy, hxy⟩
  · by_cases hlen : a.length = b.length
    · exact .inl ⟨by simp [firstDivergence, hnone, hlen], (agree_all hlen).mp hagree⟩
    · refine .inr ⟨min a.length b.length, by simp [firstDivergence, hnone, hlen], hagree, by omega,
        by omega, fun x hx y hy => ?_, by omega⟩
      have hxlt := (List.getElem?_eq_some_iff.mp hx).1
      have hylt := (List.getElem?_eq_some_iff.mp hy).1
      omega
  · have hilt := (List.getElem?_eq_some_iff.mp hx).1
    have hilt' := (List.getElem?_eq_some_iff.mp hy).1
    refine .inr ⟨i, by simp [firstDivergence, hsome], hagree, hilt.le, hilt'.le, ?_, .inl hilt⟩
    rintro x' hx' y' hy'
    rw [Option.mem_def, hx, Option.some.injEq] at hx'
    rw [Option.mem_def, hy, Option.some.injEq] at hy'
    rw [← hx', ← hy', hxy]

theorem not_diverge_of_forall {a b : List Json} (h : List.Forall₂ (fun x y => Json.same x y = true) a b)
    (i : Nat) : ¬ DivergeAt i a b := fun hi => by
  have hlen := h.length_eq
  have hlt : i < a.length := by rcases hi.more with h | h <;> omega
  have hx := List.getElem?_eq_getElem hlt
  have hy := List.getElem?_eq_getElem (show i < b.length by omega)
  have hsame := (List.forall₂_iff_get.mp h).2 i hlt (by omega)
  rw [List.get_eq_getElem, List.get_eq_getElem, hi.unequal _ hx _ hy] at hsame
  exact absurd hsame (by decide)

theorem firstDivergence_eq_none {a b : List Json} : firstDivergence a b = none ↔
    List.Forall₂ (fun x y => Json.same x y = true) a b := by
  rcases firstDivergence_cases a b with ⟨hnone, hall⟩ | ⟨i, hsome, hi⟩
  · simp [hnone, hall]
  · simp only [hsome, reduceCtorEq, false_iff]
    exact fun hall => not_diverge_of_forall hall i hi

theorem firstDivergence_eq_some {a b : List Json} {i : Nat} : firstDivergence a b = some i ↔
    DivergeAt i a b := by
  rcases firstDivergence_cases a b with ⟨hnone, hall⟩ | ⟨j, hsome, hj⟩
  · simp only [hnone, reduceCtorEq, false_iff]
    exact not_diverge_of_forall hall i
  · rw [hsome, Option.some.injEq]
    exact ⟨fun h => h ▸ hj, hj.unique⟩

/-- The files of two logs, as the command line compares them. Equal digest inputs are
equal event lists, and `diff` finds nothing then; where it finds an event, it is the
first at which the logs part, and where it finds none the events are equal but for the
types of their numbers. -/
theorem diff_written {a b : EventLog} (hmeta : (Json.obj a.metadata).Proper F)
    (hmeta' : (Json.obj b.metadata).Proper F) (ha : ∀ event ∈ a.events, (Json.obj event).Proper F)
    (hb : ∀ event ∈ b.events, (Json.obj event).Proper F) :
    ∃ header events header' events',
      loadLog F (a.toJsonl F) = some (header, events) ∧
      loadLog F (b.toJsonl F) = some (header', events') ∧
      (a.digestInput F = b.digestInput F ↔ events = events') ∧
      (firstDivergence events events' = none ↔
        (a.events.map fun event => (Json.obj event).byValue) =
          b.events.map fun event => (Json.obj event).byValue) ∧
      ∀ i, firstDivergence events events' = some i ↔ DivergeAt i events events' := by
  have hunique : ∀ {log : EventLog}, (∀ event ∈ log.events, (Json.obj event).Proper F) →
      ∀ v ∈ log.events.map (fun event => (Json.obj event).sortKeys), v.Unique := by
    intro log hlog v hv
    obtain ⟨event, hevent, rfl⟩ := List.mem_map.mp hv
    exact (hlog event hevent).sortKeys.unique
  have hvalues : ∀ {log : EventLog}, (∀ event ∈ log.events, (Json.obj event).Proper F) →
      (log.events.map fun event => (Json.obj event).sortKeys).map Json.byValue =
        log.events.map fun event => (Json.obj event).byValue := by
    intro log hlog
    rw [List.map_map]
    exact List.map_congr_left fun event hevent => Json.byValue_sortKeys (hlog event hevent).unique
  refine ⟨_, _, _, _, loadLog_toJsonl hmeta ha, loadLog_toJsonl hmeta' hb,
    EventLog.digestInput_inj ha hb, ?_, fun i => firstDivergence_eq_some⟩
  rw [firstDivergence_eq_none, forall₂_same (hunique ha) (hunique hb), hvalues ha, hvalues hb]

/-- The log of the three calls, and one that observed a number where it observed `True`. -/
def threeLog : EventLog := EventLog.emitAll ⟨[], []⟩ threeCalls

def oneForTrue : EventLog :=
  EventLog.emitAll ⟨[], []⟩ [⟨"observe", 1, [("name", .str "x"), ("value", .int 7)]⟩,
    ⟨"observe", 3, [("name", .str "x"), ("value", .int 1)]⟩]

theorem oneForTrue_proper : ∀ event ∈ oneForTrue.events, (Json.obj event).Proper .whole := by
  refine EventLog.emitAll_proper (fun e he => ?_) []
  simp only [List.mem_cons, List.not_mem_nil, or_false] at he
  rcases he with rfl | rfl <;> simp [Event.Proper, Json.Proper, Json.ProperFields, FloatText.whole]

/-- To the command line the two logs are the same. -/
theorem diff_oneForTrue :
    ∃ header events header' events',
      loadLog .whole (threeLog.toJsonl .whole) = some (header, events) ∧
      loadLog .whole (oneForTrue.toJsonl .whole) = some (header', events') ∧
      (threeLog.digestInput .whole = oneForTrue.digestInput .whole ↔ events = events') ∧
      (firstDivergence events events' = none ↔
        (threeLog.events.map fun event => (Json.obj event).byValue) =
          oneForTrue.events.map fun event => (Json.obj event).byValue) ∧
      ∀ i, firstDivergence events events' = some i ↔ DivergeAt i events events' :=
  diff_written (by simp [Json.Proper, Json.ProperFields, threeLog, EventLog.metadata_emitAll])
    (by simp [Json.Proper, Json.ProperFields, oneForTrue, EventLog.metadata_emitAll])
    (EventLog.emitAll_proper threeCalls_proper []) oneForTrue_proper

/-! ### What changed -/

/-- `event.get("kind") == "observe" and event.get("name") == name`. -/
def observes (name : String) (event : Fields) : Bool :=
  (Json.get event "kind").any (·.equalsStr "observe") && (Json.get event "name").any (·.equalsStr name)

/-- `event.get("value")`. -/
def observedValue (event : Fields) : Json := (Json.get event "value").getD .null

/-- The loop of `changed_steps`; nothing equals the sentinel it starts from. -/
def changedFrom (name : String) (previous : Option Json) : List Fields → List Fields
  | [] => []
  | event :: rest =>
    if observes name event && !(previous.any fun p => Json.same (observedValue event) p) then
      event :: changedFrom name (some (observedValue event)) rest
    else changedFrom name previous rest

/-- `changed_steps`. -/
def changedSteps (events : List Fields) (name : String) : List Fields := changedFrom name none events

/-- Each of these events behind the value before it. -/
def withPrevious (previous : Option Json) : List Fields → List (Option Json × Fields)
  | [] => []
  | event :: rest => (previous, event) :: withPrevious (some (observedValue event)) rest

/-- The value is another than the one before. -/
def changed (p : Option Json × Fields) : Bool := !(p.1.any fun v => Json.same (observedValue p.2) v)

theorem observedValue_unique {event : Fields} (h : (Json.obj event).Unique) :
    (observedValue event).Unique := by
  unfold observedValue
  cases hget : Json.get event "value" with
  | none => trivial
  | some v => exact (Json.uniqueFields_iff event).mp h.2 _ ((Json.get_eq_some h.1 "value" v).mp hget)

/-- Comparing with the last value that was reported is comparing with the last value. -/
theorem changedFrom_eq {name : String} {events : List Fields} (h : ∀ e ∈ events, (Json.obj e).Unique)
    {reported last : Option Json} (hsame : reported.map Json.byValue = last.map Json.byValue)
    (hreported : ∀ v ∈ reported, v.Unique) (hlast : ∀ v ∈ last, v.Unique) :
    changedFrom name reported events =
      ((withPrevious last (events.filter (observes name))).filter changed).map Prod.snd := by
  induction events generalizing reported last with
  | nil => rfl
  | cons event rest ih =>
    have hrest := fun e he => h e (List.mem_cons_of_mem event he)
    have hvalue := observedValue_unique (h event List.mem_cons_self)
    rw [changedFrom]
    cases hobs : observes name event with
    | false =>
      rw [Bool.false_and, if_neg (by decide), List.filter_cons_of_neg (by simp [hobs])]
      exact ih hrest hsame hreported hlast
    | true =>
      have hany : (reported.any fun p => Json.same (observedValue event) p) =
          last.any fun p => Json.same (observedValue event) p := by
        cases reported with
        | none => cases last <;> simp_all
        | some v =>
          cases last with
          | none => simp at hsame
          | some w =>
            rw [Option.any_some, Option.any_some, Bool.eq_iff_iff, Json.same_iff hvalue (hreported v rfl),
              Json.same_iff hvalue (hlast w rfl), Option.some.inj hsame]
      have hself : ∀ v ∈ some (observedValue event), v.Unique := fun v hv =>
        Option.some.inj hv ▸ hvalue
      rw [Bool.true_and, List.filter_cons_of_pos hobs, withPrevious, hany]
      cases hlastany : last.any fun p => Json.same (observedValue event) p with
      | false =>
        rw [List.filter_cons_of_pos (by simp [changed, hlastany]), List.map_cons, if_pos (by decide),
          ih hrest rfl hself hself]
      | true =>
        rw [List.filter_cons_of_neg (by simp [changed, hlastany]), if_neg (by decide)]
        apply ih hrest _ hreported hself
        obtain ⟨w, rfl, hw⟩ := (Option.any_eq_true _ _).mp hlastany
        rw [hsame, Option.map_some, Option.map_some, (Json.same_iff hvalue (hlast w rfl)).mp hw]

/-- `--changed` lists exactly the observations of the name whose value is another than
that of the observation of the name before them. -/
theorem changedSteps_eq {events : List Fields} (h : ∀ e ∈ events, (Json.obj e).Unique) (name : String) :
    changedSteps events name =
      ((withPrevious none (events.filter (observes name))).filter changed).map Prod.snd :=
  changedFrom_eq h rfl (fun _ hv => by simp at hv) fun _ hv => by simp at hv

theorem changedSteps_three :
    changedSteps threeLog.events "x" =
      ((withPrevious none (threeLog.events.filter (observes "x"))).filter changed).map Prod.snd :=
  changedSteps_eq (fun event hevent =>
    (EventLog.emitAll_proper threeCalls_proper [] event hevent).unique) "x"

end Simloom
