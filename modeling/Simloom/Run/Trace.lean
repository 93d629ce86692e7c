import Simloom.Loop.Rooted
import Simloom.Run.Cli

/-! `simloom trace`: the causal stack of a step, from the log that a run wrote.

`causal_stack` looks out for cycles and for numbers of no step, and a log may have either.
The log of a run has neither: each stack goes down to a step that nothing woke. -/
namespace Simloom
open Theory SimLoop
variable {F : FloatText}

/-! ### Following causes -/

/-- `steps_of`. -/
def stepsOf (events : List Fields) : List Fields :=
  events.filter fun event => (Json.get event "kind").any (·.equalsStr "step")

/-- `steps[cursor].get("woke_by")`. -/
def wokeBy (event : Fields) : Json := (Json.get event "woke_by").getD .null

/-- What a cursor makes of the loop of `causal_stack`. -/
inductive Look where
  | ends
  | goes (number : Nat)
  | refused

/-- A cursor that is an integer. -/
def lookInt (count : Nat) (seen : List Nat) (n : Int) : Look :=
  if n.toNat ∉ seen ∧ 0 ≤ n ∧ n < count then .goes n.toNat else .ends

/-- Numbers compare by value, but a float is no index of a list. No string compares with a
number, and what cannot be hashed is looked for in no set. -/
def look (count : Nat) (seen : List Nat) : Json → Look
  | .null => .ends
  | .int n => lookInt count seen n
  | .bool b => lookInt count seen (if b then 1 else 0)
  | .float x => if x ∉ seen.map Nat.cast ∧ 0 ≤ x ∧ x < count then .refused else .ends
  | .str _ | .arr _ | .obj _ => .refused

/-- The loop of `causal_stack`; `none` where a `TypeError` is raised. -/
def stackFrom (steps : List Fields) : Nat → List Nat → Json → Option (List Json)
  | 0, _, _ => some []
  | fuel + 1, seen, cursor =>
    match look steps.length seen cursor with
    | .refused => none
    | .ends => some []
    | .goes number =>
      (stackFrom steps fuel (number :: seen) (wokeBy (steps.getD number []))).map (cursor :: ·)

/-- `causal_stack`. -/
def causalStack (steps : List Fields) (index : Int) : Option (List Json) :=
  stackFrom steps (steps.length + 1) [] (.int index)

/-- Where the look goes is a step that was not seen. -/
theorem look_goes {count : Nat} {seen : List Nat} {cursor : Json} {number : Nat}
    (h : look count seen cursor = .goes number) : number ∉ seen ∧ number < count := by
  have hint : ∀ n, lookInt count seen n = .goes number → number ∉ seen ∧ number < count := by
    intro n hn
    unfold lookInt at hn
    split at hn
    · next hlook =>
      obtain rfl := Look.goes.inj hn
      exact ⟨hlook.1, by omega⟩
    · cases hn
  cases cursor with
  | int n => exact hint n h
  | bool b => exact hint _ h
  | float x =>
    dsimp only [look] at h
    split at h <;> cases h
  | null | str _ | arr _ | obj _ => cases h

/-- One look for each step and one more are as many as the loop ever takes. -/
theorem stackFrom_enough (steps : List Fields) (fuel : Nat) {seen : List Nat} (hnodup : seen.Nodup)
    (hbound : ∀ number ∈ seen, number < steps.length) (hfuel : steps.length < fuel + seen.length)
    (cursor : Json) : stackFrom steps (fuel + 1) seen cursor = stackFrom steps fuel seen cursor := by
  induction fuel generalizing seen cursor with
  | zero =>
    have hsubset : seen ⊆ List.range steps.length := fun number hnumber =>
      List.mem_range.mpr (hbound number hnumber)
    have hle := (hnodup.subperm hsubset).length_le
    rw [List.length_range] at hle
    omega
  | succ fuel ih =>
    rw [stackFrom, stackFrom]
    cases hlook : look steps.length seen cursor with
    | ends | refused => rfl
    | goes number =>
      obtain ⟨hfresh, hlt⟩ := look_goes hlook
      dsimp only
      rw [ih (List.nodup_cons.mpr ⟨hfresh, hnodup⟩)]
      · intro n hn
        rcases List.mem_cons.mp hn with rfl | hn
        · exact hlt
        · exact hbound n hn
      · rw [List.length_cons]
        omega

/-! ### Down to a root -/

/-- The chain goes from a step to the one that woke it, an earlier one, until nothing woke
it. -/
inductive DownToRoot (steps : List Fields) : Nat → List Nat → Prop where
  | root {number : Nat} {event : Fields} : steps[number]? = some event → wokeBy event = .null →
    DownToRoot steps number [number]
  | down {number cause : Nat} {event : Fields} {chain : List Nat} : steps[number]? = some event →
    wokeBy event = .int cause → cause < number → DownToRoot steps cause chain →
    DownToRoot steps number (number :: chain)

/-- No step is woken by a later one. -/
def Grounded (steps : List Fields) : Prop :=
  ∀ number, ∀ event ∈ steps[number]?, wokeBy event = .null ∨ ∃ cause : Nat, cause < number ∧
    wokeBy event = .int cause

theorem look_int {count number : Nat} {seen : List Nat} (hlt : number < count) (hfresh : number ∉ seen) :
    look count seen (.int number) = .goes number := by
  simp [look, lookInt, hlt, hfresh]

theorem stackFrom_grounded {steps : List Fields} (h : Grounded steps) (fuel : Nat) {seen : List Nat}
    {number : Nat} (hlt : number < steps.length) (hseen : ∀ n ∈ seen, number < n) (hfuel : number < fuel) :
    ∃ chain, stackFrom steps fuel seen (.int number) = some (chain.map fun n : Nat => Json.int n) ∧
      DownToRoot steps number chain := by
  induction fuel generalizing seen number with
  | zero => omega
  | succ fuel ih =>
    have hget := List.getElem?_eq_getElem hlt
    have hfresh : number ∉ seen := fun hmem => Nat.lt_irrefl number (hseen number hmem)
    rw [stackFrom, look_int hlt hfresh]
    dsimp only
    rw [List.getD_eq_getElem?_getD, hget, Option.getD_some]
    rcases h number _ hget with hroot | ⟨cause, hcause, hwoke⟩
    · refine ⟨[number], ?_, .root hget hroot⟩
      rw [hroot]
      cases fuel <;> rfl
    · have hlater : ∀ n ∈ number :: seen, cause < n := by
        intro n hn
        rcases List.mem_cons.mp hn with rfl | hn
        · exact hcause
        · exact hcause.trans (hseen n hn)
      obtain ⟨chain, hchain, hdown⟩ := ih (hcause.trans hlt) hlater (by omega)
      refine ⟨number :: chain, ?_, .down hget hwoke hcause hdown⟩
      rw [hwoke, hchain]
      rfl

theorem causalStack_grounded {steps : List Fields} (h : Grounded steps) {number : Nat}
    (hlt : number < steps.length) :
    ∃ chain, causalStack steps number = some (chain.map fun n : Nat => Json.int n) ∧
      DownToRoot steps number chain :=
  stackFrom_grounded h _ hlt (fun _ hn => absurd hn List.not_mem_nil) (by omega)

/-! ### The log of a run -/

/-- An event that was emitted, as it is read back. -/
def Event.sorted (e : Event) (seq : Nat) : Fields := (Json.sortFields (e.object seq)).mergeSort Json.keyLe

theorem get_object {e : Event} (seq : Nat) {key : String} (hkey : key ∉ reservedFields) :
    Json.get (e.object seq) key = e.field key := by
  simp only [reservedFields, List.mem_cons, List.not_mem_nil, or_false, not_or] at hkey
  obtain ⟨hseq, hkind, ht⟩ := hkey
  have hnot : ∀ {name : String}, ¬ key = name → (key == name) = false := fun h => beq_eq_false_iff_ne.mpr h
  unfold Event.object Event.own Json.get Event.field
  rw [List.cons_append, List.cons_append, List.cons_append, List.nil_append, List.lookup_cons,
    List.lookup_cons, List.lookup_cons, hnot hseq, hnot hkind, hnot ht]
  dsimp only
  generalize e.fields = fields
  induction fields with
  | nil => rfl
  | cons field rest ih =>
    rw [List.lookup_cons, List.find?_cons, Bool.beq_comm (a := key)]
    cases hfield : field.1 == key with
    | true => rfl
    | false => exact ih

section Sorted
variable {e : Event} (hkeys : (e.fields.map Prod.fst).Nodup) (hadm : e.admissible = true) (seq : Nat)
include hkeys hadm

theorem kind_sorted : Json.get (e.sorted seq) "kind" = some (.str e.kind) := by
  rw [Event.sorted, Json.get_sortFields (EventLog.nodup_object hkeys hadm seq)]
  rfl

theorem wokeBy_sorted : wokeBy (e.sorted seq) = ((e.field "woke_by").map Json.sortKeys).getD .null := by
  rw [wokeBy, Event.sorted, Json.get_sortFields (EventLog.nodup_object hkeys hadm seq),
    get_object seq (by decide)]

end Sorted

/-- The steps of a log that is read back are the steps of the log. -/
theorem stepsOf_sorted {log : List Event} (hkeys : ∀ e ∈ log, (e.fields.map Prod.fst).Nodup)
    (hadm : ∀ e ∈ log, e.admissible = true) (start : Nat) :
    List.Forall₂ (fun event e => wokeBy event = ((e.field "woke_by").map Json.sortKeys).getD .null)
      (stepsOf (log.mapIdx fun i e => e.sorted (start + i))) (log.filter fun e => e.kind == "step") := by
  induction log generalizing start with
  | nil => exact .nil
  | cons e rest ih =>
    have hrest := ih (fun x hx => hkeys x (List.mem_cons_of_mem e hx))
      (fun x hx => hadm x (List.mem_cons_of_mem e hx)) (start + 1)
    have hfirst := hkeys e List.mem_cons_self
    have hkind : ((Json.get (e.sorted start) "kind").any (·.equalsStr "step")) = (e.kind == "step") := by
      rw [kind_sorted hfirst (hadm e List.mem_cons_self) start]
      rfl
    rw [List.mapIdx_cons, Nat.add_zero, stepsOf, List.filter_cons, List.filter_cons, hkind]
    simp only [Nat.add_assoc, Nat.add_comm 1] at hrest ⊢
    split
    · exact .cons (wokeBy_sorted hfirst (hadm e List.mem_cons_self) start) hrest
    · exact hrest

theorem grounded_of_woken {steps : List Fields} {log : List Event} (h : List.Forall₂ (fun event e =>
      wokeBy event = ((e.field "woke_by").map Json.sortKeys).getD .null) steps log)
    (hwoken : ∀ number, ∀ e ∈ log[number]?, WokenBefore number e) : Grounded steps := by
  intro number event hevent
  obtain ⟨hlt, hget⟩ := List.getElem?_eq_some_iff.mp hevent
  have hlt' : number < log.length := h.length_eq ▸ hlt
  have hwoke := (List.forall₂_iff_get.mp h).2 number hlt hlt'
  rw [List.get_eq_getElem, List.get_eq_getElem, hget] at hwoke
  have hcause := (hwoken number _ (List.getElem?_eq_getElem hlt')).cause
  rw [hwoke]
  cases hfield : log[number].field "woke_by" with
  | none => exact .inl rfl
  | some v =>
    rcases hcause v hfield with rfl | ⟨cause, hlt, rfl⟩
    · exact .inl rfl
    · exact .inr ⟨cause, hlt, rfl⟩

variable {R : RandomSource} {σ J κ : Type}

/-- Whatever is done with a loop, from the file of its log every step has a causal stack: it
goes from each step to an earlier one that woke it, down to one that nothing woke. -/
theorem causalStack_run {c : LoopConfig R σ J κ} (hhonest : HonestCode c.code) (epoch : ℚ) (user : σ)
    (tape : Tape R) (scheduler : κ) (es : List (Drive R σ J)) (hdrives : ∀ e ∈ es, Chronicle.HonestDrive e)
    {metadata : Fields} (hmeta : (Json.obj metadata).Proper F)
    (hproper : ∀ e ∈ ((start epoch user tape scheduler).after c es).log, e.Proper F) :
    ∃ header events,
      loadLog F ((EventLog.emitAll ⟨[], metadata⟩
        ((start epoch user tape scheduler).after c es).log).toJsonl F) =
        some (header, events.map Json.obj) ∧
      (stepsOf events).length = ((start epoch user tape scheduler).after c es).stepCount ∧
      ∀ number < (stepsOf events).length, ∃ chain,
        causalStack (stepsOf events) number = some (chain.map fun n : Nat => Json.int n) ∧
        DownToRoot (stepsOf events) number chain := by
  have hrooted := rooted_after hhonest epoch user tape scheduler es hdrives
  generalize (start epoch user tape scheduler).after c es = l at hproper hrooted ⊢
  have hsteps : (l.log.filter Event.admissible).filter (fun e => e.kind == "step") = l.steps := by
    rw [List.filter_comm]
    apply List.filter_eq_self.mpr
    intro e he
    obtain ⟨number, hnumber⟩ := List.getElem?_of_mem he
    exact (hrooted.woken number e hnumber).admissible
  have hadm : ∀ e ∈ l.log.filter Event.admissible, e.admissible = true := fun e he =>
    (List.mem_filter.mp he).2
  have hsorted := stepsOf_sorted (fun e he => (hproper e (List.mem_filter.mp he).1).2.1) hadm 0
  rw [hsteps] at hsorted
  simp only [Nat.zero_add] at hsorted
  refine ⟨(Json.obj (EventLog.header ⟨[], metadata⟩)).sortKeys, _, ?_, hsorted.length_eq, fun number hlt =>
    causalStack_grounded (grounded_of_woken hsorted hrooted.woken) hlt⟩
  rw [loadLog_emitted hmeta hproper]
  congr 2
  apply List.ext_getElem <;> simp [Event.sorted, Json.sortKeys]

/-- A callback that makes the same timer twice, and a drain. -/
theorem causalStack_twice : ∃ header events,
    loadLog .whole ((EventLog.emitAll ⟨[], []⟩ ((start 0 0 (.generate 0) ()).after
      (Chronicle.causalLoop Chronicle.twice)
      [does [.callSoon ⟨0, none⟩], .once, .once, .drain 3]).log).toJsonl .whole) =
      some (header, events.map Json.obj) ∧
    (stepsOf events).length = ((start 0 0 (.generate 0) ()).after
      (Chronicle.causalLoop Chronicle.twice)
      [does [.callSoon ⟨0, none⟩], .once, .once, .drain 3]).stepCount ∧
    ∀ number < (stepsOf events).length, ∃ chain,
      causalStack (stepsOf events) number = some (chain.map fun n : Nat => Json.int n) ∧
      DownToRoot (stepsOf events) number chain := by
  apply causalStack_run (Chronicle.honest_scripted ?_)
  · intro e he
    simp only [List.mem_cons, List.not_mem_nil, or_false] at he
    rcases he with rfl | rfl | rfl | rfl
    · exact Chronicle.honest_does (by simp)
    all_goals trivial
  · exact ⟨List.nodup_nil, trivial⟩
  · intro e he
    change e ∈ [(⟨"step", 0, [("choice", .int 0), ("ready", .int 1), ("ran", .str "callback"),
        ("woke_by", .null), ("via", .str "soon")]⟩ : Event), ⟨"clock_jump", 5, []⟩,
      ⟨"step", 5, [("choice", .int 0), ("ready", .int 2), ("ran", .str "callback"),
        ("woke_by", .int 0), ("via", .str "timer")]⟩,
      ⟨"step", 5, [("choice", .int 0), ("ready", .int 1), ("ran", .str "callback"),
        ("woke_by", .null), ("via", .str "root")]⟩] at he
    simp only [List.mem_cons, List.not_mem_nil, or_false] at he
    rcases he with rfl | rfl | rfl | rfl <;>
      simp [Event.Proper, Json.Proper, Json.ProperFields, FloatText.whole]
  · intro job d hd e
    cases job <;> simp [Chronicle.twice] at hd
    rw [hd]
    simp

end Simloom
