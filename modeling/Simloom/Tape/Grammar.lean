import Simloom.Tape.Document

/-! Which documents are tapes.

The published format is a grammar over JSON values, and a reader is to take a document exactly if
it is one (`Reads`). `Tape.loads` looks a missing `draws` up as if it were there, and compares and
matches as Python does, for which `true` is a 1 and an integer: `reads_iff`. -/
namespace Simloom

/-! ### The grammar -/

/-- `[label, value, bound]`, the value in `[0, bound)`. -/
def Draw.IsTriple (entry : Json) : Prop :=
  ∃ label value bound, entry = .arr [.str label, .int value, .int bound] ∧
    0 ≤ value ∧ value < bound

/-- A tape document, version 1. -/
def Json.IsTape : Json → Prop
  | .obj fields =>
    Json.get fields "format" = some (.str tapeFormat) ∧
    Json.get fields "version" = some (.int tapeFormatVersion) ∧
    ∃ items, Json.get fields "draws" = some (.arr items) ∧ ∀ entry ∈ items, Draw.IsTriple entry
  | _ => False

/-- What reading a document is to come to: a replay of the draws it lists if it is a tape, and a
`ValueError` if it is not. -/
structure Json.Reads (R : RandomSource) (document : Json) : Prop where
  total : ∀ policy fallbackSeed,
    (∃ e, Tape.loads (R := R) document policy fallbackSeed = .error e ∧ e.isValueError = true) ∨
      ∃ draws, Tape.loads (R := R) document policy fallbackSeed =
        .ok (Tape.replay draws policy fallbackSeed .rng)
  accepted : ∀ policy fallbackSeed,
    (∃ t, Tape.loads (R := R) document policy fallbackSeed = .ok t) ↔ document.IsTape
  listed : ∀ policy fallbackSeed fields, document = .obj fields →
    ∀ t, Tape.loads (R := R) document policy fallbackSeed = .ok t → ∃ draws,
      t.recorded = some draws ∧
        ∀ seed, Json.get (serializeDraws draws seed) "draws" = Json.get fields "draws"

/-! ### Where it is kept -/

/-- A triple, as far as Python can tell. -/
def Draw.IsLoose (entry : Json) : Prop :=
  ∃ label value bound v b, entry = .arr [.str label, value, bound] ∧
    value.asInt = some v ∧ bound.asInt = some b ∧ 0 ≤ v ∧ v < b

/-- A document that has the right format, and a version that equals 1, has draws; and if the draws
pass for triples, the version is the integer 1 and no value and no bound is a boolean. -/
def Json.Strict : Json → Prop
  | .obj fields =>
    Json.get fields "format" = some (.str tapeFormat) →
    (∃ version, Json.get fields "version" = some version ∧
      version.equalsInt tapeFormatVersion = true) →
    Json.get fields "draws" ≠ none ∧
      ∀ items, Json.get fields "draws" = some (.arr items) → (∀ entry ∈ items, Draw.IsLoose entry) →
        Json.get fields "version" = some (.int tapeFormatVersion) ∧
        ∀ entry ∈ items, ∀ label value bound, entry = .arr [.str label, value, bound] →
          (∀ b, value ≠ .bool b) ∧ ∀ b, bound ≠ .bool b
  | _ => True

/-! ### Entries -/

theorem Draw.IsTriple.loose {entry : Json} (h : IsTriple entry) : IsLoose entry := by
  obtain ⟨label, value, bound, rfl, hrange⟩ := h
  exact ⟨label, _, _, value, bound, rfl, rfl, rfl, hrange⟩

/-- Without booleans, what passes for a triple is one. -/
theorem Draw.IsLoose.triple {entry : Json} (h : IsLoose entry)
    (hbool : ∀ label value bound, entry = .arr [.str label, value, bound] →
      (∀ b, value ≠ .bool b) ∧ ∀ b, bound ≠ .bool b) : IsTriple entry := by
  obtain ⟨label, value, bound, v, b, rfl, hv, hb, hrange⟩ := h
  obtain ⟨hvalue, hbound⟩ := hbool label value bound rfl
  have hint {j : Json} {n : Int} (hj : j.asInt = some n) (hnot : ∀ b, j ≠ .bool b) : j = .int n := by
    cases j with
    | int m => rw [Option.some.inj hj]
    | bool c => exact absurd rfl (hnot c)
    | _ => cases hj
  exact ⟨label, v, b, by rw [hint hv hvalue, hint hb hbound], hrange⟩

theorem Draw.IsTriple.not_bool {entry : Json} (h : IsTriple entry) :
    ∀ label value bound, entry = .arr [.str label, value, bound] →
      (∀ b, value ≠ .bool b) ∧ ∀ b, bound ≠ .bool b := by
  obtain ⟨label, value, bound, rfl, -⟩ := h
  intro label' value' bound' heq
  obtain ⟨-, rfl, rfl⟩ : label = label' ∧ .int value = value' ∧ .int bound = bound' := by
    simpa using heq
  exact ⟨nofun, nofun⟩

/-- The constructor takes what is in range. -/
theorem Draw.ofInts_cases (label : String) (value bound : Int) :
    (0 ≤ value ∧ value < bound ∧ ∃ d, Draw.ofInts label value bound = .ok d ∧
      d.toJson = .arr [.str label, .int value, .int bound]) ∨
    (¬ (0 ≤ value ∧ value < bound) ∧
      ∃ e, Draw.ofInts label value bound = .error e ∧ e.isValueError = true) := by
  unfold Draw.ofInts
  split
  next hbound => exact .inr ⟨by omega, _, rfl, rfl⟩
  next =>
    split
    next hrange =>
      refine .inl ⟨hrange.1, hrange.2, _, rfl, ?_⟩
      rw [Draw.toJson, Int.toNat_of_nonneg hrange.1, Int.toNat_of_nonneg (by omega)]
    next hrange => exact .inr ⟨hrange, _, rfl, rfl⟩

/-- An entry is read exactly if it passes for a triple. -/
theorem Draw.ofJson_cases (entry : Json) :
    (IsLoose entry ∧ ∃ d, Draw.ofJson entry = .ok d ∧ (IsTriple entry → d.toJson = entry)) ∨
    (¬ IsLoose entry ∧ ∃ e, Draw.ofJson entry = .error e ∧ e.isValueError = true) := by
  by_cases hshape : ∃ label value bound v b, entry = .arr [.str label, value, bound] ∧
      value.asInt = some v ∧ bound.asInt = some b
  · obtain ⟨label, value, bound, v, b, rfl, hv, hb⟩ := hshape
    have hread : Draw.ofJson (.arr [.str label, value, bound]) = Draw.ofInts label v b := by
      simp only [Draw.ofJson, hv, hb]
    rw [hread]
    rcases Draw.ofInts_cases label v b with ⟨h0, hlt, d, hd, hjson⟩ | ⟨hout, e, he⟩
    · refine .inl ⟨⟨label, value, bound, v, b, rfl, hv, hb, h0, hlt⟩, d, hd, fun htriple => ?_⟩
      obtain ⟨label', v', b', heq, -⟩ := htriple
      obtain ⟨-, rfl, rfl⟩ : label = label' ∧ value = .int v' ∧ bound = .int b' := by
        simpa using heq
      rw [hjson, ← Option.some.inj hv, ← Option.some.inj hb]
    · refine .inr ⟨?_, e, he⟩
      rintro ⟨label', value', bound', v', b', heq, hv', hb', hrange⟩
      obtain ⟨-, rfl, rfl⟩ : label = label' ∧ value = value' ∧ bound = bound' := by simpa using heq
      rw [Option.some.inj (hv.symm.trans hv'), Option.some.inj (hb.symm.trans hb')] at hout
      exact hout hrange
  · refine .inr ⟨fun hloose => hshape ?_, .malformedEntry entry, ?_, rfl⟩
    · obtain ⟨label, value, bound, v, b, heq, hv, hb, -⟩ := hloose
      exact ⟨label, value, bound, v, b, heq, hv, hb⟩
    · unfold Draw.ofJson
      split
      next label value bound =>
        split
        next v b hv hb => exact absurd ⟨label, value, bound, v, b, rfl, hv, hb⟩ hshape
        next => rfl
      next => rfl

/-- All entries are read, or the first that does not pass is refused. -/
theorem readDraws_cases (items : List Json) :
    ((∀ entry ∈ items, Draw.IsLoose entry) ∧ ∃ draws, readDraws items = .ok draws ∧
      ((∀ entry ∈ items, Draw.IsTriple entry) → draws.map Draw.toJson = items)) ∨
    ((¬ ∀ entry ∈ items, Draw.IsLoose entry) ∧
      ∃ e, readDraws items = .error e ∧ e.isValueError = true) := by
  induction items with
  | nil => exact .inl ⟨nofun, [], rfl, fun _ => rfl⟩
  | cons entry rest ih =>
    rw [readDraws]
    rcases Draw.ofJson_cases entry with ⟨hloose, d, hd, hjson⟩ | ⟨hnot, e, he, hvalue⟩
    · rw [hd]
      dsimp only
      rcases ih with ⟨hall, draws, hdraws, hback⟩ | ⟨hnot, e, he, hvalue⟩
      · refine .inl ⟨List.forall_mem_cons.mpr ⟨hloose, hall⟩, d :: draws, by rw [hdraws]; rfl, ?_⟩
        intro htriples
        obtain ⟨hentry, hrest⟩ := List.forall_mem_cons.mp htriples
        rw [List.map_cons, hjson hentry, hback hrest]
      · exact .inr ⟨fun hall => hnot (List.forall_mem_cons.mp hall).2, e, by rw [he]; rfl, hvalue⟩
    · exact .inr ⟨fun hall => hnot (List.forall_mem_cons.mp hall).1, e, by rw [he], hvalue⟩

/-! ### Documents -/

theorem Json.equalsStr_eq_true {s : String} {j : Json} : j.equalsStr s = true ↔ j = .str s := by
  cases j <;> simp [equalsStr]

variable {fields : List (String × Json)} {R : RandomSource}

theorem drawsFromDict_format (h : Json.get fields "format" ≠ some (.str tapeFormat)) :
    drawsFromDict fields = .error (.notATape (Json.get fields "format")) := by
  have hnot : (Json.get fields "format").any (·.equalsStr tapeFormat) = false := by
    cases hformat : Json.get fields "format" with
    | none => rfl
    | some j =>
      rw [Option.any_some, Bool.eq_false_iff, ne_eq, Json.equalsStr_eq_true]
      rintro rfl
      exact h hformat
  rw [drawsFromDict, hnot]
  rfl

theorem drawsFromDict_version (hformat : Json.get fields "format" = some (.str tapeFormat))
    (h : ¬ ∃ version, Json.get fields "version" = some version ∧
      version.equalsInt tapeFormatVersion = true) :
    drawsFromDict fields = .error (.unsupportedVersion (Json.get fields "version")) := by
  have hnot : (Json.get fields "version").any (·.equalsInt tapeFormatVersion) = false := by
    cases hversion : Json.get fields "version" with
    | none => rfl
    | some j =>
      rw [Option.any_some, Bool.eq_false_iff]
      exact fun heq => h ⟨j, hversion, heq⟩
  rw [drawsFromDict, hformat, hnot]
  rfl

/-- Past the checks of format and version. -/
theorem drawsFromDict_checked (hformat : Json.get fields "format" = some (.str tapeFormat))
    (hversion : ∃ version, Json.get fields "version" = some version ∧
      version.equalsInt tapeFormatVersion = true) :
    drawsFromDict fields = match Json.get fields "draws" with
      | none => .error .missingDraws
      | some (.arr raw) => readDraws raw
      | some _ => .error .drawsNotAList := by
  obtain ⟨version, hversion, heq⟩ := hversion
  have hyes : (Json.get fields "version").any (·.equalsInt tapeFormatVersion) = true := by
    rw [hversion, Option.any_some, heq]
  rw [drawsFromDict, hformat, hyes]
  rfl

/-- A document that is no tape is to be refused with a `ValueError`. -/
theorem reads_of_refused {e : DocumentError} (h : drawsFromDict fields = .error e)
    (hvalue : e.isValueError = true) (hnot : ¬ (Json.obj fields).IsTape) :
    (Json.obj fields).Reads R := by
  have hload : ∀ policy fallbackSeed,
      Tape.loads (R := R) (.obj fields) policy fallbackSeed = .error e := fun policy fallbackSeed => by
    rw [Tape.loads, h]
    rfl
  refine ⟨fun policy seed => .inl ⟨e, hload policy seed, hvalue⟩, fun policy seed => ?_, ?_⟩
  · rw [hload policy seed]
    exact iff_of_false nofun hnot
  · intro policy seed _ _ t ht
    rw [hload policy seed] at ht
    cases ht

/-- A document whose draws are read. -/
theorem reads_of_accepted {draws : List Draw} (h : drawsFromDict fields = .ok draws) :
    (Json.obj fields).Reads R ↔ (Json.obj fields).IsTape ∧
      Json.get fields "draws" = some (.arr (draws.map Draw.toJson)) := by
  have hload : ∀ policy fallbackSeed, Tape.loads (R := R) (.obj fields) policy fallbackSeed =
      .ok (Tape.replay draws policy fallbackSeed .rng) := fun policy fallbackSeed => by
    rw [Tape.loads, h]
    rfl
  constructor
  · intro hreads
    refine ⟨(hreads.accepted .strict 0).mp ⟨_, hload .strict 0⟩, ?_⟩
    obtain ⟨draws', hrecorded, hsame⟩ := hreads.listed .strict 0 fields rfl _ (hload .strict 0)
    obtain rfl : draws = draws' := Option.some.inj hrecorded
    exact (hsame none).symm
  · rintro ⟨htape, hlisted⟩
    refine ⟨fun policy seed => .inr ⟨draws, hload policy seed⟩, fun policy seed =>
      iff_of_true ⟨_, hload policy seed⟩ htape, ?_⟩
    intro policy seed fields' heq t ht
    obtain rfl := Json.obj.inj heq
    rw [hload policy seed] at ht
    obtain rfl := Except.ok.inj ht
    exact ⟨draws, rfl, fun _ => hlisted.symm⟩

/-- Past the checks, with draws that are a list. -/
theorem reads_iff_listed (hformat : Json.get fields "format" = some (.str tapeFormat))
    (hversion : ∃ version, Json.get fields "version" = some version ∧
      version.equalsInt tapeFormatVersion = true)
    {items : List Json} (hdraws : Json.get fields "draws" = some (.arr items)) :
    (Json.obj fields).Reads R ↔ (Json.obj fields).Strict := by
  have hchecked := drawsFromDict_checked hformat hversion
  rw [hdraws] at hchecked
  rcases readDraws_cases items with ⟨hall, draws, hread, hback⟩ | ⟨hnot, e, he, hvalue⟩
  · rw [reads_of_accepted (hchecked.trans hread)]
    constructor
    · rintro ⟨⟨-, hone, items', hitems', htriples⟩, -⟩ - -
      refine ⟨by rw [hdraws]; nofun, fun items'' hitems'' _ => ⟨hone, fun entry hentry => ?_⟩⟩
      obtain rfl := Json.arr.inj (Option.some.inj (hitems'.symm.trans hitems''))
      exact (htriples entry hentry).not_bool
    · intro hstrict
      obtain ⟨-, hexact⟩ := hstrict hformat hversion
      obtain ⟨hone, hbool⟩ := hexact items hdraws hall
      have htriples : ∀ entry ∈ items, Draw.IsTriple entry := fun entry hentry =>
        (hall entry hentry).triple (hbool entry hentry)
      exact ⟨⟨hformat, hone, items, hdraws, htriples⟩, by rw [hback htriples, hdraws]⟩
  · refine iff_of_true (reads_of_refused (hchecked.trans he) hvalue ?_) fun _ _ => ?_
    · rintro ⟨-, -, items', hitems', htriples⟩
      obtain rfl := Json.arr.inj (Option.some.inj (hdraws.symm.trans hitems'))
      exact hnot fun entry hentry => (htriples entry hentry).loose
    · refine ⟨by rw [hdraws]; nofun, fun items' hitems' hall => ?_⟩
      obtain rfl := Json.arr.inj (Option.some.inj (hdraws.symm.trans hitems'))
      exact absurd hall hnot

/-- Past the checks, with draws that are something else. -/
theorem reads_iff_unlisted (hformat : Json.get fields "format" = some (.str tapeFormat))
    (hversion : ∃ version, Json.get fields "version" = some version ∧
      version.equalsInt tapeFormatVersion = true)
    (hdraws : ∀ items, Json.get fields "draws" ≠ some (.arr items)) :
    (Json.obj fields).Reads R ↔ (Json.obj fields).Strict := by
  have hchecked := drawsFromDict_checked hformat hversion
  have htape : ¬ (Json.obj fields).IsTape := fun ⟨_, _, items, hitems, _⟩ => hdraws items hitems
  cases hget : Json.get fields "draws" with
  | none =>
    rw [hget] at hchecked
    refine iff_of_false (fun hreads => ?_) fun hstrict => (hstrict hformat hversion).1 hget
    have hload : Tape.loads (R := R) (.obj fields) .strict 0 = .error .missingDraws := by
      rw [Tape.loads, hchecked]
      rfl
    rcases hreads.total .strict 0 with ⟨e, he, hvalue⟩ | ⟨draws, hok⟩
    · obtain rfl := Except.error.inj (hload.symm.trans he)
      cases hvalue
    · cases hload.symm.trans hok
  | some value =>
    rw [hget] at hchecked
    have hother : drawsFromDict fields = .error .drawsNotAList := by
      rw [hchecked]
      cases value with
      | arr items => exact absurd hget (hdraws items)
      | _ => rfl
    refine iff_of_true (reads_of_refused hother rfl htape) fun _ _ => ?_
    exact ⟨by rw [hget]; nofun, fun items hitems => absurd hitems (hdraws items)⟩

/-- Documents are read as the grammar says exactly where they are strict. -/
theorem reads_iff (R : RandomSource) (document : Json) : document.Reads R ↔ document.Strict := by
  cases document with
  | obj fields =>
    by_cases hformat : Json.get fields "format" = some (.str tapeFormat)
    · by_cases hversion : ∃ version, Json.get fields "version" = some version ∧
          version.equalsInt tapeFormatVersion = true
      · by_cases hdraws : ∃ items, Json.get fields "draws" = some (.arr items)
        · obtain ⟨items, hdraws⟩ := hdraws
          exact reads_iff_listed hformat hversion hdraws
        · exact reads_iff_unlisted hformat hversion (not_exists.mp hdraws)
      · exact iff_of_true (reads_of_refused (drawsFromDict_version hformat hversion) rfl fun htape =>
          hversion ⟨_, htape.2.1, by simp [Json.equalsInt]⟩) fun _ h => absurd h hversion
    · exact iff_of_true (reads_of_refused (drawsFromDict_format hformat) rfl fun htape =>
        hformat htape.1) fun h => absurd h hformat
  | _ =>
    refine iff_of_true ⟨fun _ _ => .inl ⟨.notAnObject, rfl, rfl⟩, fun _ _ =>
      iff_of_false nofun id, nofun⟩ trivial

/-- A document without draws is no tape, and refusing it is a `KeyError`. -/
theorem loads_without_draws : ¬ (Json.obj [("format", .str "simloom-tape"), ("version", .int 1)]).Reads
    zeroSource := by
  intro hreads
  have hload : Tape.loads (R := zeroSource)
      (.obj [("format", .str "simloom-tape"), ("version", .int 1)]) .strict 0 =
        .error .missingDraws := rfl
  rcases hreads.total .strict 0 with ⟨e, he, hvalue⟩ | ⟨draws, hok⟩
  · obtain rfl := Except.error.inj (hload.symm.trans he)
    cases hvalue
  · cases hload.symm.trans hok

end Simloom
