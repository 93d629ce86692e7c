import Mathlib.Data.Finset.Sort
import Mathlib.Data.String.Basic
import Simloom.Tape.Draw
import Simloom.Theory.Dict

/-! A host's disk.

`write` and `delete` land in the buffer cache; only `fsync` makes them durable,
and a power cut decides for every buffered operation on its own whether it had
reached the platter. What this promises is said without the cache: a disk is
two maps, what a reader sees and what a power cut cannot take, and a mark on the
paths with an operation that was never synced (`Storage`). Every sequence of
operations on the cached disk is one on the two maps (`disk_refines`). -/
namespace Simloom.World
open Theory

abbrev Path := String
abbrev Content := List UInt8

inductive DiskError where
  | fileNotFound (path : Path)
  /-- The tape refused a draw of the power cut. -/
  | tape (error : TapeError)
deriving DecidableEq, Repr

/-- `buffered` is the cache: `none` marks a pending delete. -/
structure SimDisk where
  synced : Dict Path Content
  buffered : Dict Path (Option Content)

namespace SimDisk

def blank : SimDisk := ⟨Dict.empty, Dict.empty⟩

def write (d : SimDisk) (path : Path) (data : Content) : SimDisk :=
  {d with buffered := d.buffered.set path (some data)}

def read (d : SimDisk) (path : Path) : Except DiskError Content :=
  match d.buffered.get? path with
  | some none => .error (.fileNotFound path)
  | some (some buffered) => .ok buffered
  | none =>
    match d.synced.get? path with
    | some data => .ok data
    | none => .error (.fileNotFound path)

def «exists» (d : SimDisk) (path : Path) : Bool :=
  match d.buffered.get? path with
  | some buffered => buffered.isSome
  | none => (d.synced.get? path).isSome

def delete (d : SimDisk) (path : Path) : Except DiskError SimDisk :=
  if !d.exists path then .error (.fileNotFound path)
  else .ok {d with buffered := d.buffered.set path none}

/-- What `_commit` makes of the synced files. -/
def commit (synced : Dict Path Content) (path : Path) : Option Content → Dict Path Content
  | none => synced.pop path
  | some data => synced.set path data

/-- `fsync(path)`. -/
def fsyncPath (d : SimDisk) (path : Path) : SimDisk :=
  match d.buffered.get? path with
  | some data => ⟨commit d.synced path data, d.buffered.pop path⟩
  | none => d

/-- `fsync()`: the cache is committed in insertion order, then cleared. -/
def fsyncAll (d : SimDisk) : SimDisk :=
  ⟨d.buffered.entries.foldl (fun synced e => commit synced e.1 e.2) d.synced, Dict.empty⟩

def fsync (d : SimDisk) : Option Path → SimDisk
  | some path => d.fsyncPath path
  | none => d.fsyncAll

def files (d : SimDisk) : List Path :=
  let visible := d.buffered.entries.foldl
    (fun (visible : Finset Path) e => if e.2.isNone then visible.erase e.1 else insert e.1 visible)
    d.synced.keys.toFinset
  visible.sort (· ≤ ·)

def dropUnsynced (d : SimDisk) : SimDisk := {d with buffered := Dict.empty}

variable {R : RandomSource}

/-- What the tape makes of one buffered operation: the synced files afterwards. A
torn write keeps a prefix, and a write of one byte cannot be torn. -/
def fate (synced : Dict Path Content) (path : Path) (data : Option Content) (t : Tape R) :
    Except TapeError (Dict Path Content × Tape R) :=
  match data with
  | none => do
    let (gone, t) ← t.draw "disk.fate" 2
    return (if gone.val = 1 then synced.pop path else synced, t)
  | some data => do
    let (fate, t) ← t.draw "disk.fate" 3
    if fate.val = 1 ∧ data.length > 1 then
      let (tear, t) ← t.draw "disk.tear" (data.length - 1)
      return (synced.set path (data.take (1 + tear.val)), t)
    else if fate.val = 2 then return (synced.set path data, t)
    else return (synced, t)

/-- The loop of `_power_cut`. When the tape refuses, the fates decided so far stand. -/
def fates (synced : Dict Path Content) (buffered : Dict Path (Option Content)) :
    List Path → Tape R → Dict Path Content × Except TapeError (Tape R)
  | [], t => (synced, .ok t)
  | path :: rest, t =>
    match fate synced path ((buffered.get? path).getD none) t with
    | .ok (synced, t) => fates synced buffered rest t
    | .error e => (synced, .error e)

/-- `_power_cut`: every buffered operation is lost, torn or flushed, in the order of
the paths. The cache is cleared unless the tape refused. -/
def powerCut (d : SimDisk) (t : Tape R) : SimDisk × Except TapeError (Tape R) :=
  match fates d.synced d.buffered (d.buffered.keys.insertionSort (· ≤ ·)) t with
  | (synced, .ok t) => (⟨synced, Dict.empty⟩, .ok t)
  | (synced, .error e) => ({d with synced := synced}, .error e)

/-- What the cache shows of a path. -/
def view (d : SimDisk) (path : Path) : Option Content :=
  (d.buffered.get? path).getD (d.synced.get? path)

theorem read_eq (d : SimDisk) (path : Path) :
    d.read path = match d.view path with
      | some data => .ok data
      | none => .error (.fileNotFound path) := by
  unfold read view
  cases d.buffered.get? path with
  | none => cases d.synced.get? path <;> rfl
  | some data => cases data <;> rfl

theorem exists_eq (d : SimDisk) (path : Path) : d.exists path = (d.view path).isSome := by
  unfold SimDisk.exists view
  cases d.buffered.get? path <;> rfl

end SimDisk

/-! ### What a disk promises -/

/-- What a reader sees, what is durable, and which paths hold an unsynced operation. -/
@[ext] structure Storage where
  visible : Path → Option Content
  durable : Path → Option Content
  unsynced : Set Path

namespace Storage

def blank : Storage := ⟨fun _ => none, fun _ => none, ∅⟩

/-- The paths a power cut may decide on. -/
def Pending (s : Storage) (path : Path) : Prop :=
  s.visible path ≠ s.durable path ∨ path ∈ s.unsynced

/-- A non-empty proper prefix. -/
def Torn (kept data : Content) : Prop := kept ≠ [] ∧ kept <+: data ∧ kept.length < data.length

/-- What a power cut may leave of a path: the durable state, and on a pending path also
the visible state or a torn write. -/
def Survives (s : Storage) (path : Path) (left : Option Content) : Prop :=
  left = s.durable path ∨ s.Pending path ∧ (left = s.visible path ∨
    ∃ data kept, s.visible path = some data ∧ left = some kept ∧ Torn kept data)

end Storage

/-- An operation; a power cut comes with the tape it draws from. -/
inductive DiskOp (R : RandomSource) where
  | write (path : Path) (data : Content)
  | delete (path : Path)
  | fsync (path : Option Path)
  | dropUnsynced
  | powerCut (tape : Tape R)

variable {R : RandomSource}

/-- One operation on the disk: what is left, and what it raised. -/
def SimDisk.step (d : SimDisk) : DiskOp R → SimDisk × Except DiskError Unit
  | .write path data => (d.write path data, .ok ())
  | .delete path =>
    match d.delete path with
    | .ok d => (d, .ok ())
    | .error e => (d, .error e)
  | .fsync path => (d.fsync path, .ok ())
  | .dropUnsynced => (d.dropUnsynced, .ok ())
  | .powerCut tape =>
    match d.powerCut tape with
    | (d, .ok _) => (d, .ok ())
    | (d, .error e) => (d, .error (.tape e))

/-- One operation on what the disk promises. -/
inductive Storage.Step : Storage → DiskOp R → Except DiskError Unit → Storage → Prop where
  | write {s path data} : Step s (.write path data) (.ok ())
      {s with visible := Function.update s.visible path (some data)
              unsynced := insert path s.unsynced}
  | delete {s path} (present : s.visible path ≠ none) : Step s (.delete path) (.ok ())
      {s with visible := Function.update s.visible path none
              unsynced := insert path s.unsynced}
  | absent {s path} (absent : s.visible path = none) :
      Step s (.delete path) (.error (.fileNotFound path)) s
  | fsyncPath {s path} : Step s (.fsync (some path)) (.ok ())
      {s with durable := Function.update s.durable path (s.visible path)
              unsynced := s.unsynced \ {path}}
  | fsyncAll {s} : Step s (.fsync none) (.ok ()) {s with durable := s.visible, unsynced := ∅}
  | dropUnsynced {s} : Step s .dropUnsynced (.ok ()) {s with visible := s.durable, unsynced := ∅}
  | powerCut {s tape left} (survives : ∀ path, s.Survives path (left path)) :
      Step s (.powerCut tape) (.ok ()) ⟨left, left, ∅⟩
  /-- The tape refused, so the cut was not finished and readers see what they saw. -/
  | refused {s tape left e} (survives : ∀ path, s.Survives path (left path)) :
      Step s (.powerCut tape) (.error (.tape e)) {s with durable := left}

/-- What a reader of the disk finds: each path's visible content, `FileNotFoundError`
exactly on the absent ones, and the present paths in order. -/
structure SimDisk.Shows (d : SimDisk) (s : Storage) : Prop where
  read : ∀ path, d.read path = match s.visible path with
    | some data => .ok data
    | none => .error (.fileNotFound path)
  existence : ∀ path, d.exists path = (s.visible path).isSome
  files : d.files.SortedLT ∧ ∀ path, path ∈ d.files ↔ s.visible path ≠ none
  /-- A raised `delete` leaves the disk as it was. -/
  absent : ∀ (R : RandomSource) (path : Path), s.visible path = none →
    d.step (.delete path : DiskOp R) = (d, .error (.fileNotFound path))

/-- The disk goes with what it promises: it shows it now, and after each operation it
raised what was promised and goes with what is promised then. -/
inductive SimDisk.Follows : SimDisk → Storage → List (DiskOp R) → Prop where
  | done {d s} (shows_ : d.Shows s) : Follows d s []
  | step {d s op ops s'} (shows_ : d.Shows s) (allowed : s.Step op (d.step op).2 s')
      (rest : Follows (d.step op).1 s' ops) : Follows d s (op :: ops)

/-! ### The cached disk keeps the promise -/
namespace SimDisk

/-- What the cached disk promises. -/
def promise (d : SimDisk) : Storage :=
  ⟨d.view, d.synced.get?, {path | (d.buffered.get? path).isSome}⟩

theorem mem_unsynced {d : SimDisk} {path : Path} :
    path ∈ d.promise.unsynced ↔ (d.buffered.get? path).isSome := Iff.rfl

theorem commit_get? (synced : Dict Path Content) (path p : Path) (data : Option Content) :
    (commit synced path data).get? p = if p = path then data else synced.get? p := by
  cases data with
  | none => exact Dict.get?_pop synced path p
  | some data => exact Dict.get?_set synced path p data

/-- Committing a cache puts its view into the synced files. -/
theorem commits_get? (es : List (Path × Option Content)) (synced : Dict Path Content)
    (p : Path) (h : (es.map Prod.fst).Nodup) :
    (es.foldl (fun synced e => commit synced e.1 e.2) synced).get? p =
      (Dict.find p es).getD (synced.get? p) := by
  induction es generalizing synced with
  | nil => rfl
  | cons e rest ih =>
    obtain ⟨he, hr⟩ := List.nodup_cons.mp h
    rw [List.foldl_cons, ih _ hr, commit_get?, Dict.find]
    by_cases hp : p = e.1
    · have hnone : Dict.find p rest = none := Dict.find_eq_none (hp ▸ he)
      simp [hp ▸ hnone, hp]
    · simp [hp, Ne.symm hp]

theorem shown_iff (es : List (Path × Option Content)) (shown : Finset Path) (p : Path)
    (h : (es.map Prod.fst).Nodup) :
    p ∈ es.foldl (fun (visible : Finset Path) e =>
        if e.2.isNone then visible.erase e.1 else insert e.1 visible) shown ↔
      match Dict.find p es with
      | some data => data.isSome
      | none => p ∈ shown := by
  induction es generalizing shown with
  | nil => rfl
  | cons e rest ih =>
    obtain ⟨he, hr⟩ := List.nodup_cons.mp h
    rw [List.foldl_cons, ih _ hr, Dict.find]
    by_cases hp : p = e.1
    · have hnone : Dict.find p rest = none := Dict.find_eq_none (hp ▸ he)
      subst hp
      cases e.2 <;> simp [hnone]
    · rw [if_neg (Ne.symm hp)]
      cases Dict.find p rest with
      | some data => rfl
      | none => cases e.2 <;> simp [hp]

theorem mem_files (d : SimDisk) (path : Path) : path ∈ d.files ↔ d.view path ≠ none := by
  unfold files
  rw [Finset.mem_sort, shown_iff _ _ _ d.buffered.nodup, view]
  show (match d.buffered.get? path with | some data => _ | none => _) ↔ _
  cases d.buffered.get? path with
  | some data => simp [Option.isSome_iff_ne_none]
  | none => simp [Dict.mem_keys, Option.isSome_iff_ne_none]

theorem shows_promise (d : SimDisk) : d.Shows d.promise where
  read := d.read_eq
  existence := d.exists_eq
  files := ⟨Finset.sortedLT_sort _, d.mem_files⟩
  absent R path h := by
    have hx : d.exists path = false := by rw [exists_eq]; exact congrArg Option.isSome h
    simp [step, delete, hx]

/-! ### Each operation -/

theorem promise_write (d : SimDisk) (path : Path) (data : Content) :
    (d.write path data).promise =
      {d.promise with visible := Function.update d.promise.visible path (some data)
                      unsynced := insert path d.promise.unsynced} := by
  ext p
  · by_cases hp : p = path <;> simp [promise, write, view, Function.update, hp]
  · rfl
  · by_cases hp : p = path <;> simp [mem_unsynced, write, hp]

theorem delete_eq (d : SimDisk) (path : Path) (h : d.view path ≠ none) :
    d.delete path = .ok {d with buffered := d.buffered.set path none} := by
  have hx : d.exists path = true := by rw [exists_eq, Option.isSome_iff_ne_none]; exact h
  simp [delete, hx]

theorem promise_delete (d : SimDisk) (path : Path) :
    ({d with buffered := d.buffered.set path none} : SimDisk).promise =
      {d.promise with visible := Function.update d.promise.visible path none
                      unsynced := insert path d.promise.unsynced} := by
  ext p
  · by_cases hp : p = path <;> simp [promise, view, Function.update, hp]
  · rfl
  · by_cases hp : p = path <;> simp [mem_unsynced, hp]

theorem promise_fsyncPath (d : SimDisk) (path : Path) :
    (d.fsyncPath path).promise =
      {d.promise with durable := Function.update d.promise.durable path (d.promise.visible path)
                      unsynced := d.promise.unsynced \ {path}} := by
  unfold fsyncPath
  cases hb : d.buffered.get? path with
  | none =>
    ext p
    · rfl
    · by_cases hp : p = path <;> simp [promise, view, Function.update, hp, hb]
    · by_cases hp : p = path <;> simp [mem_unsynced, hp, hb]
  | some data =>
    ext p
    · by_cases hp : p = path <;> simp [promise, view, commit_get?, hp, hb]
    · by_cases hp : p = path <;> simp [promise, view, commit_get?, Function.update, hp, hb]
    · by_cases hp : p = path <;> simp [mem_unsynced, hp]

theorem promise_fsyncAll (d : SimDisk) :
    d.fsyncAll.promise = {d.promise with durable := d.promise.visible, unsynced := ∅} := by
  have hc (p : Path) : d.fsyncAll.synced.get? p = d.view p :=
    commits_get? d.buffered.entries d.synced p d.buffered.nodup
  ext p
  · show d.fsyncAll.view p = some _ ↔ d.view p = some _
    rw [← hc p]
    rfl
  · show d.fsyncAll.synced.get? p = some _ ↔ d.view p = some _
    rw [hc p]
  · simp [mem_unsynced, fsyncAll]

/-- With an empty cache the synced files are what is visible and what is durable. -/
theorem promise_synced (synced : Dict Path Content) :
    (⟨synced, Dict.empty⟩ : SimDisk).promise = ⟨synced.get?, synced.get?, ∅⟩ := by
  ext p <;> simp [promise, view]

/-! ### The power cut -/

variable {R : RandomSource}

/-- What the fate of one buffered operation may be. -/
def Fated (before data after : Option Content) : Prop :=
  after = before ∨ after = data ∨
    ∃ content kept, data = some content ∧ after = some kept ∧ Storage.Torn kept content

theorem torn_take (data : Content) {tear : Nat} (h : tear < data.length - 1) :
    Storage.Torn (data.take (1 + tear)) data := by
  have hlen : (data.take (1 + tear)).length = 1 + tear := by
    rw [List.length_take]
    omega
  refine ⟨fun h0 => ?_, List.take_prefix _ _, by omega⟩
  rw [h0, List.length_nil] at hlen
  omega

/-- A buffered operation is lost, has reached the platter, or is a torn write. -/
theorem fate_cases {synced synced' : Dict Path Content} {path : Path} {data : Option Content}
    {t t' : Tape R} (h : fate synced path data t = .ok (synced', t')) :
    synced' = synced ∨ synced' = commit synced path data ∨
      ∃ content kept, data = some content ∧ Storage.Torn kept content ∧
        synced' = synced.set path kept := by
  cases data with
  | none =>
    simp only [fate] at h
    cases hd : t.draw "disk.fate" 2 with
    | error e => rw [hd] at h; cases h
    | ok got =>
      rw [hd] at h
      by_cases hg : got.1.val = 1
      · simp only [bind, Except.bind, hg, if_true, pure, Except.pure, Except.ok.injEq] at h
        exact .inr (.inl (congrArg Prod.fst h).symm)
      · simp only [bind, Except.bind, hg, if_false, pure, Except.pure, Except.ok.injEq] at h
        exact .inl (congrArg Prod.fst h).symm
  | some content =>
    simp only [fate] at h
    cases hd : t.draw "disk.fate" 3 with
    | error e => rw [hd] at h; cases h
    | ok got =>
      rw [hd] at h
      simp only [bind, Except.bind] at h
      split at h
      · cases ht : got.2.draw "disk.tear" (content.length - 1) with
        | error e => rw [ht] at h; cases h
        | ok tear =>
          rw [ht] at h
          simp only [pure, Except.pure, Except.ok.injEq] at h
          exact .inr (.inr ⟨content, _, rfl, torn_take content tear.1.isLt,
            (congrArg Prod.fst h).symm⟩)
      · split at h
        · simp only [pure, Except.pure, Except.ok.injEq] at h
          exact .inr (.inl (congrArg Prod.fst h).symm)
        · simp only [pure, Except.pure, Except.ok.injEq] at h
          exact .inl (congrArg Prod.fst h).symm

theorem fate_self {synced synced' : Dict Path Content} {path : Path} {data : Option Content}
    {t t' : Tape R} (h : fate synced path data t = .ok (synced', t')) :
    Fated (synced.get? path) data (synced'.get? path) := by
  obtain rfl | rfl | ⟨content, kept, hdata, htorn, rfl⟩ := fate_cases h
  · exact .inl rfl
  · exact .inr (.inl (by simp [commit_get?]))
  · exact .inr (.inr ⟨content, kept, hdata, by simp, htorn⟩)

theorem fate_other {synced synced' : Dict Path Content} {path p : Path} {data : Option Content}
    {t t' : Tape R} (h : fate synced path data t = .ok (synced', t')) (hp : p ≠ path) :
    synced'.get? p = synced.get? p := by
  obtain rfl | rfl | ⟨content, kept, hdata, htorn, rfl⟩ := fate_cases h
  · rfl
  · simp [commit_get?, hp]
  · simp [hp]

/-- The cut leaves the paths it does not visit alone. -/
theorem fates_other (buffered : Dict Path (Option Content)) {paths : List Path}
    (synced : Dict Path Content) (t : Tape R) {p : Path} (hp : p ∉ paths) :
    (fates synced buffered paths t).1.get? p = synced.get? p := by
  induction paths generalizing synced t with
  | nil => rfl
  | cons path rest ih =>
    rw [List.mem_cons, not_or] at hp
    rw [fates]
    cases hf : fate synced path ((buffered.get? path).getD none) t with
    | error e => rfl
    | ok next =>
      obtain ⟨synced', t'⟩ := next
      exact (ih synced' t' hp.2).trans (fate_other hf hp.1)

/-- Each path has one fate, whether or not the cut was finished. -/
theorem fates_spec (buffered : Dict Path (Option Content)) {paths : List Path}
    (hnodup : paths.Nodup) (synced : Dict Path Content) (t : Tape R) (p : Path) :
    Fated (synced.get? p) ((buffered.get? p).getD none)
      ((fates synced buffered paths t).1.get? p) := by
  induction paths generalizing synced t with
  | nil => exact .inl rfl
  | cons path rest ih =>
    obtain ⟨hpath, hrest⟩ := List.nodup_cons.mp hnodup
    rw [fates]
    cases hf : fate synced path ((buffered.get? path).getD none) t with
    | error e => exact .inl rfl
    | ok next =>
      obtain ⟨synced', t'⟩ := next
      by_cases hp : p = path
      · subst hp
        rw [show (fates synced' buffered rest t').1.get? p = synced'.get? p from
          fates_other buffered synced' t' hpath]
        exact fate_self hf
      · have hrec := ih hrest synced' t'
        rwa [fate_other hf hp] at hrec

theorem fates_unbuffered (d : SimDisk) (t : Tape R) {p : Path} (hb : d.buffered.get? p = none) :
    (fates d.synced d.buffered (d.buffered.keys.insertionSort (· ≤ ·)) t).1.get? p =
      d.synced.get? p := by
  refine fates_other d.buffered d.synced t ?_
  rw [List.mem_insertionSort, Dict.mem_keys, hb]
  simp

/-- What the loop of the cut leaves of a path is allowed. -/
theorem fates_survive (d : SimDisk) (t : Tape R) (p : Path) :
    d.promise.Survives p
      ((fates d.synced d.buffered (d.buffered.keys.insertionSort (· ≤ ·)) t).1.get? p) := by
  have hperm := List.perm_insertionSort (· ≤ ·) d.buffered.keys
  cases hb : d.buffered.get? p with
  | none => exact .inl (d.fates_unbuffered t hb)
  | some data =>
    have hnodup := hperm.nodup_iff.mpr d.buffered.nodup
    have hpending : d.promise.Pending p := .inr (by simp [mem_unsynced, hb])
    have hview : d.promise.visible p = data := by simp [promise, view, hb]
    have hfated := fates_spec d.buffered hnodup d.synced t p
    rw [hb, Option.getD_some] at hfated
    obtain hlost | hdone | ⟨content, kept, hdata, hkept, htorn⟩ := hfated
    · exact .inl hlost
    · exact .inr ⟨hpending, .inl (hdone.trans hview.symm)⟩
    · exact .inr ⟨hpending, .inr ⟨content, kept, hview.trans hdata, hkept, htorn⟩⟩

/-! ### Refinement -/

theorem powerCut_allowed (d : SimDisk) (t : Tape R) :
    d.promise.Step (.powerCut t) (d.step (.powerCut t)).2 (d.step (.powerCut t)).1.promise := by
  have hsurvive := d.fates_survive t
  cases hf : fates d.synced d.buffered (d.buffered.keys.insertionSort (· ≤ ·)) t with
  | mk synced end_ =>
    rw [hf] at hsurvive
    cases end_ with
    | ok t' =>
      have hstep : d.step (.powerCut t) = (⟨synced, Dict.empty⟩, .ok ()) := by
        simp [step, powerCut, hf]
      rw [hstep, promise_synced]
      exact .powerCut hsurvive
    | error e =>
      have hstep : d.step (.powerCut t) = ({d with synced := synced}, .error (.tape e)) := by
        simp [step, powerCut, hf]
      have hview (p : Path) : ({d with synced := synced} : SimDisk).view p = d.view p := by
        have hother := d.fates_unbuffered t (p := p)
        rw [hf] at hother
        simp only [view]
        cases hb : d.buffered.get? p with
        | none => exact hother hb
        | some data => rfl
      have hpromise : ({d with synced := synced} : SimDisk).promise =
          {d.promise with durable := synced.get?} := by
        ext p
        · show ({d with synced := synced} : SimDisk).view p = some _ ↔ d.view p = some _
          rw [hview p]
        · rfl
        · rfl
      rw [hstep, hpromise]
      exact .refused hsurvive

theorem step_allowed (d : SimDisk) (op : DiskOp R) :
    d.promise.Step op (d.step op).2 (d.step op).1.promise := by
  cases op with
  | write path data =>
    show d.promise.Step _ _ (d.write path data).promise
    rw [promise_write]
    exact .write
  | delete path =>
    by_cases h : d.view path = none
    · rw [d.shows_promise.absent R path h]
      exact .absent h
    · have hstep : d.step (.delete path : DiskOp R) =
          ({d with buffered := d.buffered.set path none}, .ok ()) := by
        simp [step, d.delete_eq path h]
      rw [hstep, promise_delete]
      exact .delete h
  | fsync path =>
    cases path with
    | none =>
      show d.promise.Step _ _ d.fsyncAll.promise
      rw [promise_fsyncAll]
      exact .fsyncAll
    | some path =>
      show d.promise.Step _ _ (d.fsyncPath path).promise
      rw [promise_fsyncPath]
      exact .fsyncPath
  | dropUnsynced =>
    show d.promise.Step _ _ (⟨d.synced, Dict.empty⟩ : SimDisk).promise
    rw [promise_synced]
    exact .dropUnsynced
  | powerCut t => exact d.powerCut_allowed t

theorem follows_promise (d : SimDisk) (ops : List (DiskOp R)) : d.Follows d.promise ops := by
  induction ops generalizing d with
  | nil => exact .done d.shows_promise
  | cons op rest ih => exact .step d.shows_promise (d.step_allowed op) (ih _)

/-- Whatever is done to a new disk, it goes with the two maps. -/
theorem disk_refines (ops : List (DiskOp R)) : blank.Follows Storage.blank ops := by
  have hblank : blank.promise = Storage.blank := promise_synced Dict.empty
  rw [← hblank]
  exact blank.follows_promise ops

end SimDisk

end Simloom.World
