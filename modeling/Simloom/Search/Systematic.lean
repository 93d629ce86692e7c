import Simloom.Run.Result

/-! Systematic exploration: an odometer over the choice tape.

A schedule is a tape. Each iteration executes a plan, reads the realised draws,
finds the rightmost draw that may be bumped and keeps the prefix up to it as the
next plan. `execute` stands for the call
`replay(main, tape=plan, policy=FALLBACK, fallback="zero", raise_on_error=False, ..)`
of the source, whatever program and options it is made with. -/
namespace Simloom

structure SystematicOptions where
  maxDelays : Nat
  maxSchedules : Nat
  maxBound : Nat
  stopOnFailure : Bool

structure SystematicResult where
  schedules : Nat
  failures : List Failure
  maxDelays : Nat
  exhaustive : Bool
  firstFailureAt : Option Nat
  firstFailureDelays : Option Nat
  first : Option RunResult

def SystematicResult.failed (r : SystematicResult) : Bool := !r.failures.isEmpty

def SystematicResult.provenCorrect (r : SystematicResult) : Bool :=
  r.exhaustive && r.failures.isEmpty

/-- The number of non-default choices in a schedule prefix. -/
def delays (draws : List Draw) : Nat := draws.countP (·.value != 0)

/-- `replace(draw, value=draw.value + 1)`. -/
def Draw.bump (d : Draw) (h : d.value + 1 < d.bound) : Draw := ⟨d.label, d.value + 1, d.bound, h⟩

/-- The odometer's search from `index - 1` down: the plan that bumps the rightmost
draw with an untried alternative, a bound in reach and delay budget before it. -/
def odometer (maxDelays maxBound : Nat) (realized : List Draw) : Nat → Option (List Draw)
  | 0 => none
  | index + 1 =>
    match realized[index]? with
    | none => odometer maxDelays maxBound realized index
    | some d =>
      if h : d.value + 1 < d.bound ∧ d.bound ≤ maxBound ∧
          delays (realized.take index) < maxDelays then
        some (realized.take index ++ [d.bump h.1])
      else odometer maxDelays maxBound realized index

/-- The variables of the search loop. `realised` is not one of the source's: it
collects the tapes of the successive iterations. -/
structure Campaign where
  plan : List Draw
  failures : List Failure
  first : Option RunResult
  firstAt : Option Nat
  firstDelays : Option Nat
  explored : Nat
  exhaustive : Bool
  realised : List (List Draw)

def Campaign.start : Campaign := ⟨[], [], none, none, none, 0, false, []⟩

/-- The bookkeeping after one execution. -/
def Campaign.record (c : Campaign) (result : RunResult) : Campaign :=
  let c := {c with explored := c.explored + 1, realised := c.realised ++ [result.tape]}
  match result.error with
  | none => c
  | some e =>
    let c := {c with failures := c.failures ++ [e.failure c.explored]}
    match c.first with
    | some _ => c
    | none => {c with first := some result, firstAt := some c.explored
                      firstDelays := some (delays result.tape)}

/-- The loop, with `remaining` schedules left in the budget. -/
def exploreLoop (execute : List Draw → Except Halt RunResult) (o : SystematicOptions) :
    Nat → Campaign → Except Halt Campaign
  | 0, c => .ok c
  | remaining + 1, c =>
    match execute c.plan with
    | .error e => .error e
    | .ok result =>
      if result.outcome = .error ∧ o.stopOnFailure = true then .ok (c.record result)
      else
        match odometer o.maxDelays o.maxBound result.tape result.tape.length with
        | none => .ok {c.record result with exhaustive := true}
        | some plan => exploreLoop execute o remaining {c.record result with plan := plan}

/-- The options are checked before anything runs. A negative `max_delays`, which the
source also refuses, cannot be written here. -/
def exploreCampaign (execute : List Draw → Except Halt RunResult) (o : SystematicOptions) :
    Except Halt Campaign :=
  if o.maxSchedules < 1 then .error (.raised ⟨valueError, "max_schedules must be >= 1"⟩)
  else if o.maxBound < 2 then .error (.raised ⟨valueError, "max_bound must be >= 2"⟩)
  else exploreLoop execute o o.maxSchedules .start

def Campaign.result (c : Campaign) (o : SystematicOptions) : SystematicResult :=
  ⟨c.explored, c.failures, o.maxDelays, c.exhaustive, c.firstAt, c.firstDelays, c.first⟩

def exploreSystematic (execute : List Draw → Except Halt RunResult) (o : SystematicOptions) :
    Except Halt SystematicResult :=
  (exploreCampaign execute o).map (·.result o)

/-- The first failure of a search is a result of one of its executions. -/
theorem exploreLoop_first {execute : List Draw → Except Halt RunResult} {o : SystematicOptions}
    {n : Nat} {c c' : Campaign} (h : exploreLoop execute o n c = .ok c')
    (hc : ∀ r, c.first = some r → ∃ plan, execute plan = .ok r) :
    ∀ r, c'.first = some r → ∃ plan, execute plan = .ok r := by
  induction n generalizing c with
  | zero => exact Except.ok.inj h ▸ hc
  | succ n ih =>
    unfold exploreLoop at h
    cases he : execute c.plan with
    | error e => rw [he] at h; cases h
    | ok result =>
      have hrecord : ∀ r, (c.record result).first = some r → ∃ plan, execute plan = .ok r := by
        intro r hr
        unfold Campaign.record at hr
        cases herr : result.error with
        | none => rw [herr] at hr; exact hc r hr
        | some e =>
          cases hfirst : c.first with
          | some first => simp only [herr, hfirst] at hr; exact hc r (hfirst.trans hr)
          | none =>
            simp only [herr, hfirst] at hr
            exact ⟨c.plan, Option.some.inj hr ▸ he⟩
      simp only [he] at h
      split at h
      · exact Except.ok.inj h ▸ hrecord
      · split at h
        · exact Except.ok.inj h ▸ hrecord
        · exact ih h hrecord

theorem exploreSystematic_first {execute : List Draw → Except Halt RunResult}
    {o : SystematicOptions} {s : SystematicResult} (h : exploreSystematic execute o = .ok s) :
    ∀ r, s.first = some r → ∃ plan, execute plan = .ok r := by
  unfold exploreSystematic exploreCampaign at h
  split at h
  · cases h
  · split at h
    · cases h
    · cases hl : exploreLoop execute o o.maxSchedules .start with
      | error e => rw [hl] at h; cases h
      | ok c =>
        rw [hl] at h
        obtain rfl := Except.ok.inj h
        exact exploreLoop_first hl fun r hr => by cases hr

/-! ### What recording does -/

section Record
variable (c : Campaign) (result : RunResult)

theorem Campaign.record_realised : (c.record result).realised = c.realised ++ [result.tape] := by
  unfold record
  cases result.error with
  | none => rfl
  | some e => cases c.first <;> rfl

theorem Campaign.record_exhaustive : (c.record result).exhaustive = c.exhaustive := by
  unfold record
  cases result.error with
  | none => rfl
  | some e => cases c.first <;> rfl

theorem Campaign.record_failures :
    (c.record result).failures = [] ↔ c.failures = [] ∧ result.error = none := by
  unfold record
  cases result.error with
  | none => simp
  | some e => cases c.first <;> simp

end Record

/-! ### The odometer from the left -/

/-- The same bump found from the left: the tail first, then the head, with the
budget that the draws before it leave. -/
def bumpRight (maxBound : Nat) : Nat → List Draw → Option (List Draw)
  | _, [] => none
  | budget, d :: rest =>
    match bumpRight maxBound (budget - if d.value = 0 then 0 else 1) rest with
    | some plan => some (d :: plan)
    | none =>
      if h : d.value + 1 < d.bound ∧ d.bound ≤ maxBound ∧ 0 < budget then some [d.bump h.1]
      else none

theorem delays_append (a b : List Draw) : delays (a ++ b) = delays a + delays b :=
  List.countP_append ..

theorem delays_cons (d : Draw) (ds : List Draw) :
    delays (d :: ds) = (if d.value = 0 then 0 else 1) + delays ds := by
  unfold delays
  by_cases h : d.value = 0
  · simp [h]
  · simp [h, Nat.add_comm]

/-- Past a prefix, the search looks at the rest first and falls back to the prefix. -/
theorem odometer_append (maxDelays maxBound : Nat) (pre rest : List Draw) :
    odometer maxDelays maxBound (pre ++ rest) (pre.length + rest.length) =
      match bumpRight maxBound (maxDelays - delays pre) rest with
      | some plan => some (pre ++ plan)
      | none => odometer maxDelays maxBound (pre ++ rest) pre.length := by
  induction rest generalizing pre with
  | nil => rfl
  | cons d rest ih =>
    have hrest := ih (pre ++ [d])
    rw [List.append_assoc, List.singleton_append, List.length_append, List.length_singleton,
      Nat.add_assoc, Nat.add_comm 1] at hrest
    rw [List.length_cons, hrest]
    have hbudget : maxDelays - delays (pre ++ [d]) =
        maxDelays - delays pre - if d.value = 0 then 0 else 1 := by
      rw [delays_append, delays_cons, Nat.sub_add_eq]
      rfl
    rw [hbudget, bumpRight]
    cases bumpRight maxBound (maxDelays - delays pre - if d.value = 0 then 0 else 1) rest with
    | some plan => simp only [List.append_assoc, List.singleton_append]
    | none =>
      have hget : (pre ++ d :: rest)[pre.length]? = some d := by simp
      have htake : (pre ++ d :: rest).take pre.length = pre := by simp
      simp only [odometer, hget, htake]
      by_cases h : d.value + 1 < d.bound ∧ d.bound ≤ maxBound ∧ delays pre < maxDelays
      · have h' : d.value + 1 < d.bound ∧ d.bound ≤ maxBound ∧ 0 < maxDelays - delays pre :=
          ⟨h.1, h.2.1, Nat.sub_pos_of_lt h.2.2⟩
        rw [dif_pos h, dif_pos h']
      · have h' : ¬ (d.value + 1 < d.bound ∧ d.bound ≤ maxBound ∧ 0 < maxDelays - delays pre) :=
          fun hc => h ⟨hc.1, hc.2.1, Nat.lt_of_sub_pos hc.2.2⟩
        rw [dif_neg h, dif_neg h']

theorem odometer_eq (maxDelays maxBound : Nat) (realized : List Draw) :
    odometer maxDelays maxBound realized realized.length = bumpRight maxBound maxDelays realized := by
  have h := odometer_append maxDelays maxBound [] realized
  simp only [List.nil_append, List.length_nil, Nat.zero_add] at h
  rw [h]
  show (match bumpRight maxBound (maxDelays - 0) realized with
    | some plan => some plan
    | none => none) = _
  rw [Nat.sub_zero]
  cases bumpRight maxBound maxDelays realized <;> rfl

end Simloom
