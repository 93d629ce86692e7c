import Simloom.Run.Explore
import Simloom.Theory.Transition

/-! `soak`: seeds in shards, with a checkpoint.

A call walks the indices of its shard from the cursor that it reads, and writes the
cursor after each run: it reads the checkpoint again and replaces it. A call is followed
from one such step to the next, so that it may be killed between any two of them, and
several calls may take theirs in turn. -/
namespace Simloom
open Theory

/-- The `index`-th seed of a shard. -/
def shardSeed (start : Int) (shards shard index : Nat) : Int := start + shard + index * shards

/-! ### The checkpoint -/

structure Checkpoint where
  start : Int
  shards : Nat
  cursors : Dict Nat Nat

def Checkpoint.cursor (data : Checkpoint) (shard : Nat) : Nat := (data.cursors.get? shard).getD 0

/-- The cursor in a file that may not exist. -/
def cursorIn (file : Option Checkpoint) (shard : Nat) : Nat := file.elim 0 fun data => data.cursor shard

/-- A `ValueError` of `soak`. -/
inductive SoakError where
  | badShards
  | badShard (shards shard : Int)
  | badCount
  | mismatch (dataStart : Int) (dataShards : Nat) (start : Int) (shards : Nat)

def SoakError.message (path : String) : SoakError → String
  | .badShards => "shards must be >= 1"
  | .badShard shards shard => "shard must be in [0, " ++ toString shards ++ "), got " ++ toString shard
  | .badCount => "count must be >= 0"
  | .mismatch dataStart dataShards start shards =>
    "checkpoint " ++ path ++ " is for start=" ++ toString dataStart ++ " shards=" ++
      toString dataShards ++ ", not start=" ++ toString start ++ " shards=" ++ toString shards ++
      "; use a fresh checkpoint or matching parameters"

/-- The checks of the arguments. -/
def validateSoak (shards shard count : Int) : Except SoakError Unit :=
  if shards < 1 then .error .badShards
  else if ¬(0 ≤ shard ∧ shard < shards) then .error (.badShard shards shard)
  else if count < 0 then .error .badCount
  else .ok ()

/-- The file is for these parameters. -/
def Checkpoint.Fits (data : Checkpoint) (start : Int) (shards : Nat) : Prop :=
  data.start = start ∧ data.shards = shards

instance (data : Checkpoint) (start : Int) (shards : Nat) : Decidable (data.Fits start shards) :=
  inferInstanceAs (Decidable (_ ∧ _))

/-- `_read_cursor`. -/
def readCursor (file : Option Checkpoint) (start : Int) (shards shard : Nat) : Except SoakError Nat :=
  match file with
  | none => .ok 0
  | some data =>
    if data.Fits start shards then .ok (data.cursor shard)
    else .error (.mismatch data.start data.shards start shards)

/-- What `_write_cursor` will put in the place of the file that it has read. -/
def updated (existing : Option Checkpoint) (start : Int) (shards shard index : Nat) : Checkpoint :=
  let data := match existing with
    | some data => if data.Fits start shards then data else ⟨start, shards, .empty⟩
    | none => ⟨start, shards, .empty⟩
  {data with cursors := data.cursors.set shard index}

theorem updated_fits {file : Option Checkpoint} {start : Int} {shards : Nat} (shard index : Nat) :
    (updated file start shards shard index).Fits start shards := by
  unfold updated
  cases file with
  | none => exact ⟨rfl, rfl⟩
  | some data =>
    dsimp only
    split
    next h => exact h
    next => exact ⟨rfl, rfl⟩

/-- Only the cursor of the shard is new. -/
theorem updated_cursor {file : Option Checkpoint} {start : Int} {shards : Nat}
    (hfits : ∀ data ∈ file, data.Fits start shards) (shard index k : Nat) :
    (updated file start shards shard index).cursor k = if k = shard then index else cursorIn file k := by
  unfold updated Checkpoint.cursor
  cases file with
  | none => by_cases hk : k = shard <;> simp [hk, cursorIn]
  | some data =>
    have hdata : data.Fits start shards := hfits data rfl
    by_cases hk : k = shard <;> simp [hk, hdata, cursorIn, Checkpoint.cursor]

theorem readCursor_ok {file : Option Checkpoint} {start : Int} {shards shard index : Nat}
    (h : readCursor file start shards shard = .ok index) : cursorIn file shard = index := by
  cases file with
  | none => exact Except.ok.inj h
  | some data =>
    unfold readCursor at h
    dsimp only at h
    split at h
    · exact Except.ok.inj h
    · cases h

/-! ### One call -/

structure SoakReport where
  shard : Nat
  shards : Nat
  start : Int
  seeds : List Int
  failures : List Failure
  coverage : Dict String Nat
  nextIndex : Nat
  stoppedEarly : Bool

/-- Where a call is. From `running` to `replacing` the index is the one that is being run
and whose successor is still to be written. -/
inductive SoakPhase where
  | opening
  | ready (index : Nat)
  | running (index : Nat)
  | ran (index : Nat) (failure : Option Failure)
  | saving (index : Nat)
  | replacing (index : Nat) (data : Checkpoint)
  | saved (index : Nat)
  | returned (report : SoakReport)
  /-- It was killed, or it raised. -/
  | over

/-- The index whose checkpoint write has not completed. -/
def SoakPhase.unsaved : SoakPhase → Option Nat
  | .running index | .ran index _ | .saving index | .replacing index _ => some index
  | _ => none

/-- The first index that is not known to be done. -/
def SoakPhase.cursor : SoakPhase → Option Nat
  | .ready index | .running index | .ran index _ | .saving index | .replacing index _
  | .saved index => some index
  | .returned report => some report.nextIndex
  | .opening | .over => none

def SoakPhase.finished : SoakPhase → Bool
  | .returned _ | .over => true
  | _ => false

theorem SoakPhase.finished_of_unsaved {p : SoakPhase} {index : Nat} (h : p.unsaved = some index) :
    p.finished = false := by
  cases p <;> first | rfl | cases h

structure SoakCall where
  shard : Nat
  count : Nat
  stopOnFailure : Bool
  onFailure : Bool
  seeds : List Int
  failures : List Failure
  coverage : Dict String Nat
  phase : SoakPhase

/-- The steps of a call. -/
inductive SoakAct where
  /-- Read the cursor. -/
  | opened
  /-- The loop's condition: start a run, or return. -/
  | loop
  /-- The run has ended. -/
  | finish (r : RunResult)
  /-- The failure, if there is one, has been reported; the callback may have raised. -/
  | report (raised : Bool)
  | readExisting
  | replace
  /-- Stop on a failure, or go on. -/
  | check
  | kill

namespace SoakCall
variable (start : Int) (shards : Nat)

def begin (shard count : Nat) (stopOnFailure onFailure : Bool) : SoakCall :=
  ⟨shard, count, stopOnFailure, onFailure, [], [], .empty, .opening⟩

def move (c : SoakCall) (phase : SoakPhase) : SoakCall := {c with phase := phase}

/-- Return the report. -/
def done (c : SoakCall) (index : Nat) (stopped : Bool) : SoakCall :=
  c.move (.returned ⟨c.shard, shards, start, c.seeds, c.failures, c.coverage, index, stopped⟩)

/-- A step, on the file as it is: the file afterwards and the call. -/
def step (file : Option Checkpoint) (c : SoakCall) (act : SoakAct) :
    Option (Option Checkpoint × SoakCall) :=
  match c.phase, act with
  | .opening, .opened =>
    match readCursor file start shards c.shard with
    | .ok index => some (file, c.move (.ready index))
    | .error _ => some (file, c.move .over)
  | .ready index, .loop =>
    some (file, if index < c.count then c.move (.running index) else c.done start shards index false)
  | .running index, .finish r =>
    let seed := shardSeed start shards c.shard index
    let failure := r.error.map fun e => e.failure seed
    some (file, {c with
      seeds := c.seeds ++ [seed]
      coverage := addCoverage c.coverage r.coverage
      failures := c.failures ++ failure.toList
      phase := .ran index failure})
  | .ran index failure, .report raised =>
    some (file, if failure.isSome ∧ c.onFailure ∧ raised then c.move .over else c.move (.saving index))
  | .saving index, .readExisting =>
    some (file, c.move (.replacing index (updated file start shards c.shard (index + 1))))
  | .replacing index data, .replace => some (some data, c.move (.saved (index + 1)))
  | .saved index, .check =>
    some (file, if !c.failures.isEmpty ∧ c.stopOnFailure then c.done start shards index true
      else c.move (.ready index))
  | phase, .kill => if phase.finished then none else some (file, c.move .over)
  | _, _ => none

variable {start shards}

/-- What a step of a call does. -/
inductive Did (start : Int) (shards : Nat) (file : Option Checkpoint) (c : SoakCall) :
    SoakAct → Option Checkpoint → SoakCall → Prop
  | opened {c' : SoakCall} {index : Nat} (hphase : c.phase = .opening)
      (hread : readCursor file start shards c.shard = .ok index) (hshard : c'.shard = c.shard)
      (hready : c'.phase = .ready index) : Did start shards file c .opened file c'
  | started {c' : SoakCall} {index : Nat} (hphase : c.phase = .ready index)
      (hshard : c'.shard = c.shard) (hrunning : c'.phase = .running index) :
      Did start shards file c .loop file c'
  | went {act : SoakAct} {c' : SoakCall} {index : Nat} (hact : act ≠ .readExisting ∧ act ≠ .replace)
      (hlive : c.phase.finished = false) (hcursor : c.phase.cursor = some index)
      (hshard : c'.shard = c.shard) (hcursor' : c'.phase.cursor = some index)
      (hunsaved : c'.phase.unsaved = c.phase.unsaved)
      (hrunning : ∀ index, c'.phase ≠ .running index)
      (hreplacing : ∀ index data, c'.phase ≠ .replacing index data) :
      Did start shards file c act file c'
  | readExisting {c' : SoakCall} {index : Nat} (hphase : c.phase = .saving index)
      (hshard : c'.shard = c.shard)
      (hreplacing : c'.phase = .replacing index (updated file start shards c.shard (index + 1))) :
      Did start shards file c .readExisting file c'
  | replaced {c' : SoakCall} {index : Nat} {data : Checkpoint} (hphase : c.phase = .replacing index data)
      (hshard : c'.shard = c.shard) (hsaved : c'.phase = .saved (index + 1)) :
      Did start shards file c .replace (some data) c'
  | ended {act : SoakAct} {c' : SoakCall} (hact : act ≠ .readExisting ∧ act ≠ .replace)
      (hlive : c.phase.finished = false) (hshard : c'.shard = c.shard) (hover : c'.phase = .over) :
      Did start shards file c act file c'

theorem did_of_step {file file' : Option Checkpoint} {c c' : SoakCall} {act : SoakAct}
    (h : c.step start shards file act = some (file', c')) : Did start shards file c act file' c' := by
  have hlive : c.phase.finished = false := by
    refine Bool.eq_false_iff.mpr fun hfinished => ?_
    cases hphase : c.phase <;> rw [hphase] at hfinished <;> cases hfinished <;>
      cases act <;> simp [step, hphase, SoakPhase.finished] at h
  -- each act but the last has one phase
  cases act with
  | opened =>
    cases hphase : c.phase <;> simp only [step, hphase, reduceCtorEq] at h
    case opening =>
      cases hread : readCursor file start shards c.shard with
      | ok index =>
        rw [hread] at h
        cases h
        exact .opened hphase hread rfl rfl
      | error e =>
        rw [hread] at h
        cases h
        exact .ended (by simp) hlive rfl rfl
  | loop =>
    cases hphase : c.phase <;> simp only [step, hphase, reduceCtorEq] at h
    case ready index =>
      by_cases hlt : index < c.count
      · rw [if_pos hlt] at h
        cases h
        exact .started hphase rfl rfl
      · rw [if_neg hlt] at h
        cases h
        exact .went (by simp) hlive (by rw [hphase]; rfl) rfl rfl (by rw [hphase]; rfl)
          (by simp [done, move]) (by simp [done, move])
  | finish r =>
    cases hphase : c.phase <;> simp only [step, hphase, reduceCtorEq] at h
    case running index =>
      cases h
      exact .went (by simp) hlive (by rw [hphase]; rfl) rfl rfl (by rw [hphase]; rfl) (by simp) (by simp)
  | report raised =>
    cases hphase : c.phase <;> simp only [step, hphase, reduceCtorEq] at h
    case ran index failure =>
      by_cases hraised : failure.isSome ∧ c.onFailure ∧ raised
      · rw [if_pos hraised] at h
        cases h
        exact .ended (by simp) hlive rfl rfl
      · rw [if_neg hraised] at h
        cases h
        exact .went (by simp) hlive (by rw [hphase]; rfl) rfl rfl (by rw [hphase]; rfl) (by simp [move])
          (by simp [move])
  | readExisting =>
    cases hphase : c.phase <;> simp only [step, hphase, reduceCtorEq] at h
    case saving index =>
      cases h
      exact .readExisting hphase rfl rfl
  | replace =>
    cases hphase : c.phase <;> simp only [step, hphase, reduceCtorEq] at h
    case replacing index data =>
      cases h
      exact .replaced hphase rfl rfl
  | check =>
    cases hphase : c.phase <;> simp only [step, hphase, reduceCtorEq] at h
    case saved index =>
      by_cases hstop : (!c.failures.isEmpty) = true ∧ c.stopOnFailure = true
      · rw [if_pos hstop] at h
        cases h
        exact .went (by simp) hlive (by rw [hphase]; rfl) rfl rfl (by rw [hphase]; rfl)
          (by simp [done, move]) (by simp [done, move])
      · rw [if_neg hstop] at h
        cases h
        exact .went (by simp) hlive (by rw [hphase]; rfl) rfl rfl (by rw [hphase]; rfl) (by simp [move])
          (by simp [move])
  | kill =>
    have hover : some (file, c.move .over) = some (file', c') := by
      cases hphase : c.phase <;> rw [hphase] at hlive <;> simpa [step, hphase, hlive] using h
    cases hover
    exact .ended (by simp) hlive rfl rfl

theorem Did.live {file file' : Option Checkpoint} {c c' : SoakCall} {act : SoakAct}
    (h : Did start shards file c act file' c') : c.phase.finished = false := by
  cases h with
  | opened h => rw [h]; rfl
  | started h => rw [h]; rfl
  | went _ h => exact h
  | readExisting h => rw [h]; rfl
  | replaced h => rw [h]; rfl
  | ended _ h => exact h

end SoakCall

/-! ### Calls on one checkpoint -/

/-- A run of an index by a call. -/
structure Start where
  call : Nat
  shard : Nat
  index : Nat
deriving DecidableEq

/-- The file and the calls on it. The last two fields are not the source's: the runs that
were started, and those whose call ended before their checkpoint write completed. -/
structure Soak where
  file : Option Checkpoint
  calls : List SoakCall
  started : List Start
  lost : List Start

namespace Soak

def on (file : Option Checkpoint) : Soak := ⟨file, [], [], []⟩

inductive Event where
  | begin (shard count : Int) (stopOnFailure onFailure : Bool)
  | act (call : Nat) (act : SoakAct)

variable (start : Int) (shards : Nat)

/-- What a step of a call does to the whole. -/
def after (s : Soak) (i : Nat) (c c' : SoakCall) (file : Option Checkpoint) : Soak where
  file := file
  calls := s.calls.set i c'
  started := s.started ++ match c.phase, c'.phase with
    | .ready _, .running index => [⟨i, c.shard, index⟩]
    | _, _ => []
  lost := s.lost ++ match c'.phase with
    | .over => c.phase.unsaved.toList.map fun index => ⟨i, c.shard, index⟩
    | _ => []

def step (s : Soak) : Event → Option Soak
  | .begin shard count stopOnFailure onFailure =>
    match validateSoak shards shard count with
    | .ok _ =>
      some {s with
        calls := s.calls ++ [.begin shard.toNat count.toNat stopOnFailure onFailure]}
    | .error _ => some s
  | .act i act =>
    match s.calls[i]? with
    | none => none
    | some c => (c.step start shards s.file act).map fun done => s.after i c done.2 done.1

/-- A call begins when none is under way. -/
def Sequential (s : Soak) : Event → Prop
  | .begin .. => ∀ c ∈ s.calls, c.phase.finished = true
  | .act .. => True

variable {start shards} {s : Soak} {i : Nat} {c c' : SoakCall}

/-- A step of a call is one of its acts. -/
theorem did_of_step {act : SoakAct} {s' : Soak} (h : s.step start shards (.act i act) = some s') :
    ∃ c c' file, s.calls[i]? = some c ∧ SoakCall.Did start shards s.file c act file c' ∧
      s' = s.after i c c' file := by
  unfold Soak.step at h
  dsimp only at h
  cases hi : s.calls[i]? with
  | none => rw [hi] at h; cases h
  | some c =>
    rw [hi] at h
    obtain ⟨⟨file, c'⟩, hc, rfl⟩ := Option.map_eq_some_iff.mp h
    exact ⟨c, c', file, rfl, SoakCall.did_of_step hc, rfl⟩

/-- The calls after one of them has moved. -/
theorem getElem?_moved (hi : s.calls[i]? = some c) (j : Nat) :
    (s.calls.set i c')[j]? = if j = i then some c' else s.calls[j]? := by
  obtain ⟨hlt, _⟩ := List.getElem?_eq_some_iff.mp hi
  rw [List.getElem?_set]
  by_cases hij : i = j
  · simp [hij, hij ▸ hlt]
  · simp [hij, Ne.symm hij]

/-- After a move of the call that was under way, what holds of it holds of every call. -/
theorem forall_moved {P : Nat → SoakCall → Prop} (hi : s.calls[i]? = some c)
    (hself : P i c') (hothers : ∀ j d, j ≠ i → s.calls[j]? = some d → P j d) :
    ∀ j d, (s.calls.set i c')[j]? = some d → P j d := by
  intro j d hj
  rw [getElem?_moved hi] at hj
  by_cases hji : j = i
  · rw [if_pos hji, Option.some.injEq] at hj
    rw [hji, ← hj]
    exact hself
  · rw [if_neg hji] at hj
    exact hothers j d hji hj

/-- A step that neither starts a run nor ends the call by force. -/
theorem after_quiet {file : Option Checkpoint} (hstart : ∀ index, c'.phase ≠ .running index)
    (hover : c'.phase ≠ .over) :
    s.after i c c' file = {s with file := file, calls := s.calls.set i c'} := by
  show Soak.mk _ _ _ _ = Soak.mk _ _ _ _
  congr 1
  · split
    next _ index _ hc => exact absurd hc (hstart index)
    next => exact List.append_nil _
  · split
    next hc => exact absurd hc hover
    next => exact List.append_nil _

theorem after_over {file : Option Checkpoint} (hover : c'.phase = .over) :
    s.after i c c' file = {s with
      file := file, calls := s.calls.set i c'
      lost := s.lost ++ c.phase.unsaved.toList.map fun index => ⟨i, c.shard, index⟩} := by
  unfold after
  rw [hover]
  cases c.phase <;> simp

theorem after_start {file : Option Checkpoint} {index : Nat} (hphase : c.phase = .ready index)
    (hrunning : c'.phase = .running index) :
    s.after i c c' file = {s with
      file := file, calls := s.calls.set i c'
      started := s.started ++ [⟨i, c.shard, index⟩]} := by
  unfold after
  rw [hphase, hrunning]
  simp

end Soak

end Simloom
