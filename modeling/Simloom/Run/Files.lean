import Simloom.Run.EventLog
import Simloom.Run.Descriptor
import Simloom.Tape.Grammar
import Simloom.Run.Testing
import Simloom.Run.Soak

/-! The files of a run as text: tapes, artifacts and checkpoints.

A tape is written compactly with its keys sorted, an artifact indented with its keys in
the order they were set, a checkpoint with the default separators. Each is read by
`json.loads` and looked up by key, so that layout and order do not matter. As for all text
here, the limit of 4300 digits on `int` and `str` is taken as off. -/
namespace Simloom
open Theory Theory.Lexical

variable {F : FloatText} {R : RandomSource}

/-! ### Tapes -/

/-- How reading a tape's text fails. -/
inductive TextError where
  | notJson
  | refused (e : DocumentError)

/-- `Tape.dumps()`, as text. -/
def Tape.text (F : FloatText) (t : Tape R) : List Char := Json.canonical F t.dumps

/-- `Tape.loads` of a text. -/
def Tape.loadText (F : FloatText) (text : List Char) (policy : MisalignmentPolicy) (fallbackSeed : Int) :
    Except TextError (Tape R) :=
  match Json.loads F text with
  | none => .error .notJson
  | some v => (Tape.loads v policy fallbackSeed).mapError .refused

theorem Draw.toJson_proper (d : Draw) : d.toJson.Proper F := ⟨trivial, trivial, trivial, trivial⟩

theorem serializeDraws_proper (draws : List Draw) (seed : Option Int) :
    (Json.obj (serializeDraws draws seed)).Proper F := by
  have hdraws : Json.ProperItems F (draws.map Draw.toJson) := by
    rw [Json.properItems_iff]
    intro v hv
    obtain ⟨d, -, rfl⟩ := List.mem_map.mp hv
    exact d.toJson_proper
  have hkeys : ((serializeDraws draws seed).map Prod.fst).Nodup :=
    show ["format", "version", "seed", "draws"].Nodup by decide
  refine ⟨hkeys, trivial, trivial, ?_, hdraws, trivial⟩
  cases seed <;> trivial

theorem Json.sortKeys_toJson (d : Draw) : d.toJson.sortKeys = d.toJson := rfl

theorem sortItems_draws (draws : List Draw) :
    Json.sortItems (draws.map Draw.toJson) = draws.map Draw.toJson := by
  rw [Json.sortItems_eq, List.map_map]
  exact List.map_congr_left fun d _ => Json.sortKeys_toJson d

/-- A dict with the members of a tape document is read as the document. -/
theorem drawsFromDict_of_get {fields : Fields} (draws : List Draw) (seed : Option Int)
    (h : ∀ key ∈ ["format", "version", "draws"],
      Json.get fields key = Json.get (serializeDraws draws seed) key) :
    drawsFromDict fields = .ok draws := by
  have hdraws : Json.get fields "draws" = some (.arr (draws.map Draw.toJson)) := h "draws" (by decide)
  rw [drawsFromDict_checked (h "format" (by decide)) ⟨_, h "version" (by decide), by decide⟩, hdraws]
  exact readDraws_toJson draws

/-- Sorting the keys of a tape document does not change what is read from it. -/
theorem drawsFromDict_sorted (draws : List Draw) (seed : Option Int) :
    drawsFromDict ((Json.sortFields (serializeDraws draws seed)).mergeSort Json.keyLe) = .ok draws := by
  refine drawsFromDict_of_get draws seed fun key hkey => ?_
  rw [Json.get_sortFields (serializeDraws_proper (F := .whole) draws seed).1]
  have hlist := sortItems_draws draws
  simp only [List.mem_cons, List.not_mem_nil, or_false] at hkey
  rcases hkey with rfl | rfl | rfl
  · rfl
  · rfl
  · show some (Json.sortKeys (.arr (draws.map Draw.toJson))) = _
    rw [Json.sortKeys, hlist]
    rfl

/-- A tape's text loads as the replay of its draws. -/
theorem Tape.loadText_text (t : Tape R) (policy : MisalignmentPolicy) (fallbackSeed : Int) :
    Tape.loadText (R := R) F (t.text F) policy fallbackSeed =
      .ok (Tape.replay t.draws policy fallbackSeed .rng) := by
  have hread := Json.loads_canonical (F := F) (v := t.dumps) (serializeDraws_proper t.draws t.seed)
  have hsort : t.dumps.sortKeys =
      .obj ((Json.sortFields (serializeDraws t.draws t.seed)).mergeSort Json.keyLe) := rfl
  rw [Tape.loadText, Tape.text, hread, hsort]
  simp only [Tape.loads, drawsFromDict_sorted]
  rfl

/-! ### Artifacts -/

namespace Json

/-- `bool(value)`. -/
def truthy : Json → Bool
  | .null => false
  | .bool b => b
  | .int n => n != 0
  | .float x => x != 0
  | .str s => s != ""
  | .arr items => !items.isEmpty
  | .obj fields => !fields.isEmpty

end Json

/-- The payload of an artifact: the tape document, and the strategy's descriptor. -/
def Artifact.payload (file : Artifact) : Fields :=
  file.document ++
    (file.scheduler.map fun s => ("scheduler", Json.str (String.ofList s.descriptor))).toList

/-- `json.dumps(payload, indent=1)`. -/
def Artifact.text (F : FloatText) (file : Artifact) : List Char :=
  Json.write F .indented 0 (.obj file.payload)

/-- What `_replay_tape_file` takes from a file: the draws and the scheduler. -/
def readTapeFile (F : FloatText) (text : List Char) (scheduler : Json) :
    Except TextError (List Draw × Json) :=
  match Json.loads F text with
  | some (.obj data) =>
    ((drawsFromDict data).mapError .refused).map fun draws =>
      (draws, ((Json.get data "scheduler").filter Json.truthy).getD scheduler)
  | _ => .error .notJson

/-- A written artifact gives back the tape and the strategy it was written for. -/
theorem readTapeFile_artifact (path : String) (tape : List Draw) (seed : Option Int) (s : Strategy)
    (scheduler : Json) : readTapeFile F ((tapeArtifact path tape seed s).text F) scheduler =
      .ok (tape, .str (String.ofList s.descriptor)) := by
  have hkeys : ((tapeArtifact path tape seed s).payload.map Prod.fst).Nodup :=
    show ["format", "version", "seed", "draws", "scheduler"].Nodup by decide
  have hproper : (Json.obj (tapeArtifact path tape seed s).payload).Proper F := by
    refine ⟨hkeys, (Json.properFields_iff _).mpr fun p hp => ?_⟩
    rcases List.mem_append.mp hp with hp | hp
    · exact (Json.properFields_iff _).mp (serializeDraws_proper tape seed).2 p hp
    · obtain rfl := List.mem_singleton.mp hp
      trivial
  have hread := Json.loads_write (F := F) .indented hproper
  have hdraws : drawsFromDict (tapeArtifact path tape seed s).payload = .ok tape := by
    refine drawsFromDict_of_get tape seed fun key hkey => ?_
    simp only [List.mem_cons, List.not_mem_nil, or_false] at hkey
    rcases hkey with rfl | rfl | rfl <;> rfl
  have hname : Json.get (tapeArtifact path tape seed s).payload "scheduler" =
      some (.str (String.ofList s.descriptor)) := rfl
  have htruthy : Json.truthy (.str (String.ofList s.descriptor)) = true := by
    cases s <;> simp [Json.truthy, Strategy.descriptor]
  rw [readTapeFile, Artifact.text, hread]
  simp only [hdraws, hname, Option.filter_some, htruthy, if_true, Option.getD_some]
  rfl

/-- Every artifact of a failed test gives back the draws of its document and a strategy
that resolves to the one it names. -/
theorem artifacts_read_back (name : String) (failure : RunResult) (shrunk : Option ShrinkResult)
    (directory : Option String) : ∀ file ∈ writeArtifacts name failure shrunk directory,
      ∃ tape s, drawsFromDict file.document = .ok tape ∧ file.scheduler = some s ∧
        resolveText (some s.descriptor) = .ok s ∧
        ∀ scheduler, readTapeFile F (file.text F) scheduler =
          .ok (tape, .str (String.ofList s.descriptor)) := by
  have hone : ∀ path tape seed s, ∃ tape' s', drawsFromDict (tapeArtifact path tape seed s).document =
      .ok tape' ∧ (tapeArtifact path tape seed s).scheduler = some s' ∧
      resolveText (some s'.descriptor) = .ok s' ∧
      ∀ scheduler, readTapeFile F ((tapeArtifact path tape seed s).text F) scheduler =
        .ok (tape', .str (String.ofList s'.descriptor)) := fun path tape seed s =>
    ⟨tape, s, drawsFromDict_serializeDraws tape seed, rfl, resolveText_descriptor s,
      readTapeFile_artifact path tape seed s⟩
  intro file hfile
  cases directory with
  | none => simp [writeArtifacts] at hfile
  | some directory =>
    simp only [writeArtifacts, List.mem_cons, Option.mem_toList, Option.map_eq_some_iff] at hfile
    rcases hfile with rfl | ⟨sr, -, rfl⟩
    · exact hone _ _ _ _
    · exact hone _ _ _ _

/-- A failure under PCT, with its tape written to a directory. -/
def failedUnderPct : RunResult :=
  (Report.mk (some assertionError) [] []).result (some 7) [⟨"sched.pick", 1, 2, by decide⟩]
    (.pct 2 (-5))

theorem artifact_failedUnderPct : ∃ tape s,
    drawsFromDict (tapeArtifact "out/t-seed7.tape.json" failedUnderPct.tape failedUnderPct.seed
      failedUnderPct.scheduler).document = .ok tape ∧ some failedUnderPct.scheduler = some s ∧
      resolveText (some s.descriptor) = .ok s ∧
      ∀ scheduler, readTapeFile .whole ((tapeArtifact "out/t-seed7.tape.json" failedUnderPct.tape
        failedUnderPct.seed failedUnderPct.scheduler).text .whole) scheduler =
          .ok (tape, .str (String.ofList s.descriptor)) :=
  artifacts_read_back "t" failedUnderPct none (some "out") _ List.mem_cons_self

/-! ### Checkpoints -/

/-- `str(n)`. -/
def strNat (n : Nat) : String := String.ofList (Nat.toDigits 10 n)

theorem strNat_inj {m n : Nat} (h : strNat m = strNat n) : m = n := by
  have hlist : Nat.toDigits 10 m = Nat.toDigits 10 n := by simpa [strNat] using congrArg String.toList h
  rw [← Nat.ofDigitChars_ten_toDigits (n := m), hlist, Nat.ofDigitChars_ten_toDigits]

namespace Checkpoint

def cursorFields (entries : List (Nat × Nat)) : Fields :=
  entries.map fun e => (strNat e.1, .int e.2)

/-- The document of a checkpoint. -/
def document (data : Checkpoint) : Fields :=
  [("start", .int data.start), ("shards", .int data.shards),
    ("cursors", .obj (cursorFields data.cursors.entries))]

/-- `json.dump(data, handle)`. -/
def text (F : FloatText) (data : Checkpoint) : List Char := Json.write F .default 0 (.obj data.document)

end Checkpoint

/-- How reading or writing a checkpoint fails on its text. -/
inductive CursorError where
  | notADict
  | mismatch (start shards : Option Json)
  | notAnInt (value : Json)

/-- The error on the text of a checkpoint that a call wrote. -/
def SoakError.onText : SoakError → CursorError
  | .mismatch start shards _ _ => .mismatch (some (.int start)) (some (.int shards))
  | _ => .notADict

/-- `int(value)`. -/
def Json.toInt : Json → Option Int
  | .int n => some n
  | .bool b => some (if b then 1 else 0)
  | .float x => some (x.num.tdiv x.den)
  | .str s => pyInt s.toList
  | _ => none

/-- `data.get("start") == start and data.get("shards") == shards`. -/
def fitsText (data : Fields) (start : Int) (shards : Nat) : Bool :=
  (Json.get data "start").any (·.equalsInt start) && (Json.get data "shards").any (·.equalsInt shards)

/-- `json.loads` of a file that is to hold a dict. -/
def loadDict (F : FloatText) (text : List Char) : Except CursorError Fields :=
  match Json.loads F text with
  | some (.obj data) => .ok data
  | _ => .error .notADict

/-- `_read_cursor`, on the text of the file. -/
def readCursorText (F : FloatText) (file : Option (List Char)) (start : Int) (shards shard : Nat) :
    Except CursorError Int :=
  match file with
  | none => .ok 0
  | some text => do
    let data ← loadDict F text
    if fitsText data start shards then
      match (Json.get data "cursors").getD (.obj []) with
      | .obj cursors =>
        let value := (Json.get cursors (strNat shard)).getD (.int 0)
        match value.toInt with
        | some n => .ok n
        | none => .error (.notAnInt value)
      | _ => .error .notADict
    else .error (.mismatch (Json.get data "start") (Json.get data "shards"))

/-- The dict that `_write_cursor` starts from. -/
def cursorBase (F : FloatText) (file : Option (List Char)) (start : Int) (shards : Nat) :
    Except CursorError Fields :=
  let fresh : Fields := [("start", .int start), ("shards", .int shards), ("cursors", .obj [])]
  match file with
  | none => .ok fresh
  | some text => do
    let existing ← loadDict F text
    if fitsText existing start shards then
      if (Json.get existing "cursors").isSome then .ok existing
      else .ok (Dict.put "cursors" (.obj []) existing)
    else .ok fresh

/-- `_write_cursor`, on the text of the file: the text that replaces it. -/
def writeCursorText (F : FloatText) (file : Option (List Char)) (start : Int) (shards shard index : Nat) :
    Except CursorError (List Char) := do
  let data ← cursorBase F file start shards
  match Json.get data "cursors" with
  | some (.obj cursors) =>
    .ok (Json.write F .default 0
      (.obj (Dict.put "cursors" (.obj (Dict.put (strNat shard) (.int index) cursors)) data)))
  | _ => .error .notADict

namespace Checkpoint

theorem nodup_cursorFields (cursors : Dict Nat Nat) :
    ((cursorFields cursors.entries).map Prod.fst).Nodup := by
  have hkeys : (cursorFields cursors.entries).map Prod.fst = (cursors.entries.map Prod.fst).map strNat := by
    simp [cursorFields]
  rw [hkeys]
  exact cursors.nodup.map fun a b => strNat_inj

theorem document_proper (data : Checkpoint) : (Json.obj data.document).Proper F := by
  have hkeys : (data.document.map Prod.fst).Nodup := show ["start", "shards", "cursors"].Nodup by decide
  refine ⟨hkeys, trivial, trivial, ⟨nodup_cursorFields data.cursors, ?_⟩, trivial⟩
  rw [Json.properFields_iff]
  intro p hp
  obtain ⟨e, -, rfl⟩ := List.mem_map.mp hp
  trivial

theorem loadDict_text (data : Checkpoint) : loadDict F (data.text F) = .ok data.document := by
  rw [loadDict, text, Json.loads_write .default data.document_proper]

theorem get_cursorFields (entries : List (Nat × Nat)) (shard : Nat) :
    Json.get (cursorFields entries) (strNat shard) =
      (Dict.find shard entries).map fun n => Json.int (n : Int) := by
  induction entries with
  | nil => rfl
  | cons e rest ih =>
    unfold Json.get cursorFields at ih ⊢
    rw [List.map_cons, List.lookup_cons, Dict.find, ih]
    by_cases hkey : e.1 = shard
    · rw [if_pos hkey, hkey, beq_self_eq_true]
      rfl
    · have hne : (strNat shard == strNat e.1) = false :=
        beq_eq_false_iff_ne.mpr fun h => hkey (strNat_inj h).symm
      rw [if_neg hkey, hne]

theorem put_cursorFields (entries : List (Nat × Nat)) (shard index : Nat) :
    Dict.put (strNat shard) (.int index) (cursorFields entries) =
      cursorFields (Dict.put shard index entries) := by
  induction entries with
  | nil => rfl
  | cons e rest ih =>
    unfold cursorFields at ih ⊢
    rw [List.map_cons, Dict.put, Dict.put, ih]
    by_cases hkey : e.1 = shard
    · rw [if_pos hkey, if_pos (by rw [hkey])]
      rfl
    · rw [if_neg hkey, if_neg fun h => hkey (strNat_inj h)]
      rfl

theorem fitsText_document (data : Checkpoint) (start : Int) (shards : Nat) :
    fitsText data.document start shards = true ↔ data.Fits start shards := by
  have hstart : Json.get data.document "start" = some (.int data.start) := rfl
  have hshards : Json.get data.document "shards" = some (.int data.shards) := rfl
  rw [fitsText, hstart, hshards]
  simp [Json.equalsInt, Fits]

end Checkpoint

theorem readCursorText_some {text : List Char} {data : Fields} (hload : loadDict F text = .ok data)
    (start : Int) (shards shard : Nat) :
    readCursorText F (some text) start shards shard =
      if fitsText data start shards then
        match (Json.get data "cursors").getD (.obj []) with
        | .obj cursors =>
          match ((Json.get cursors (strNat shard)).getD (.int 0)).toInt with
          | some n => .ok n
          | none => .error (.notAnInt ((Json.get cursors (strNat shard)).getD (.int 0)))
        | _ => .error .notADict
      else .error (.mismatch (Json.get data "start") (Json.get data "shards")) := by
  rw [readCursorText, hload]
  rfl

theorem cursorBase_some {text : List Char} {data : Fields} (hload : loadDict F text = .ok data)
    (start : Int) (shards : Nat) (hcursors : (Json.get data "cursors").isSome = true) :
    cursorBase F (some text) start shards = .ok (if fitsText data start shards then data
      else [("start", .int start), ("shards", .int shards), ("cursors", .obj [])]) := by
  rw [cursorBase, hload]
  simp only [bind, Except.bind, hcursors, if_true]
  split <;> rfl

/-- Setting a cursor in a checkpoint's document is setting it in the checkpoint. -/
theorem writeCursorText_of_base {file : Option (List Char)} {start : Int} {shards : Nat}
    (data : Checkpoint) (h : cursorBase F file start shards = .ok data.document) (shard index : Nat) :
    writeCursorText F file start shards shard index =
      .ok (Checkpoint.text F {data with cursors := data.cursors.set shard index}) := by
  have hcursors : Json.get data.document "cursors" =
      some (.obj (Checkpoint.cursorFields data.cursors.entries)) := rfl
  rw [writeCursorText, h]
  simp only [bind, Except.bind, hcursors, Checkpoint.put_cursorFields]
  rfl

/-- On files that `soak` wrote, reading and writing the text are reading and writing the
checkpoint. -/
theorem cursor_text (file : Option Checkpoint) (start : Int) (shards shard index : Nat) :
    readCursorText F (file.map (Checkpoint.text F)) start shards shard =
        ((readCursor file start shards shard).mapError SoakError.onText).map Int.ofNat ∧
      writeCursorText F (file.map (Checkpoint.text F)) start shards shard index =
        .ok ((updated file start shards shard index).text F) := by
  cases file with
  | none => exact ⟨rfl, rfl⟩
  | some data =>
    have hload := Checkpoint.loadDict_text (F := F) data
    have hcursors : Json.get data.document "cursors" =
        some (.obj (Checkpoint.cursorFields data.cursors.entries)) := rfl
    have hget := Checkpoint.get_cursorFields data.cursors.entries shard
    have hbase := cursorBase_some hload start shards (by rw [hcursors]; rfl)
    rw [Option.map_some, readCursorText_some hload]
    by_cases hfits : data.Fits start shards
    · rw [if_pos ((Checkpoint.fitsText_document data start shards).mpr hfits)] at hbase ⊢
      constructor
      · have hread : readCursor (some data) start shards shard = .ok (data.cursor shard) := if_pos hfits
        have hcursor : data.cursor shard = (Dict.find shard data.cursors.entries).getD 0 := rfl
        rw [hread, hcursor, hcursors]
        simp only [Option.getD_some, hget]
        cases Dict.find shard data.cursors.entries <;> rfl
      · have hupdated : updated (some data) start shards shard index =
            {data with cursors := data.cursors.set shard index} := by simp [updated, hfits]
        rw [hupdated]
        exact writeCursorText_of_base data hbase shard index
    · have htext : ¬ fitsText data.document start shards = true := fun h =>
        hfits ((Checkpoint.fitsText_document data start shards).mp h)
      rw [if_neg htext] at hbase ⊢
      constructor
      · have hread : readCursor (some data) start shards shard =
            .error (.mismatch data.start data.shards start shards) := if_neg hfits
        rw [hread]
        rfl
      · have hupdated : updated (some data) start shards shard index =
            {(⟨start, shards, .empty⟩ : Checkpoint) with
              cursors := (Dict.empty : Dict Nat Nat).set shard index} := by simp [updated, hfits]
        rw [hupdated]
        exact writeCursorText_of_base ⟨start, shards, .empty⟩ hbase shard index

/-- One call of `_write_cursor`. -/
structure CursorWrite where
  start : Int
  shards : Nat
  shard : Nat
  index : Nat

/-- The checkpoint after some writes. -/
def afterWrites (file : Option Checkpoint) (writes : List CursorWrite) : Option Checkpoint :=
  writes.foldl (fun file w => some (updated file w.start w.shards w.shard w.index)) file

/-- The text of the file after some writes. -/
def afterWritesText (F : FloatText) (file : Option (List Char)) (writes : List CursorWrite) :
    Except CursorError (Option (List Char)) :=
  writes.foldlM (fun file w =>
    (writeCursorText F file w.start w.shards w.shard w.index).map some) file

/-- Whatever calls have written to a checkpoint file, for whatever parameters, no write is
refused and its text is read as the checkpoint they leave. -/
theorem checkpoints_as_text (file : Option Checkpoint) (writes : List CursorWrite) :
    afterWritesText F (file.map (Checkpoint.text F)) writes =
        .ok ((afterWrites file writes).map (Checkpoint.text F)) ∧
      ∀ start shards shard,
        readCursorText F ((afterWrites file writes).map (Checkpoint.text F)) start shards shard =
          ((readCursor (afterWrites file writes) start shards shard).mapError SoakError.onText).map
            Int.ofNat := by
  refine ⟨?_, fun start shards shard => (cursor_text _ start shards shard 0).1⟩
  induction writes generalizing file with
  | nil => rfl
  | cons w rest ih =>
    have hwrite := (cursor_text (F := F) file w.start w.shards w.shard w.index).2
    rw [afterWritesText, List.foldlM_cons, hwrite]
    exact ih (some (updated file w.start w.shards w.shard w.index))

end Simloom
