import Simloom.Run.Result
import Simloom.Theory.Dict
import Simloom.Theory.Lexical

/-! Scheduling strategies as text.

A run records its strategy as a descriptor, `"random"` or `"pct:d=3,k=4096"`, and
takes requests in the same words; a request may leave the parameters out, or ask for
`"pct:auto"`. The texts are read parameter by parameter into a dict. -/
namespace Simloom
open Theory Theory.Lexical

/-! ### `int` -/

/-- What `int` strips off an ASCII text. -/
def intSpace (c : Char) : Bool := c == ' ' || (9 ≤ c.toNat && c.toNat ≤ 13)

/-- Digits, with single underscores between them; `after` says that a digit came before. -/
def intDigits (after : Bool) : List Char → Option (List Char)
  | [] => if after then some [] else none
  | c :: rest =>
    if c.isDigit then (intDigits true rest).map (c :: ·)
    else if c = '_' ∧ after then intDigits false rest
    else none

/-- `int(text)`, for ASCII; `none` is a `ValueError`. -/
def pyInt (text : List Char) : Option Int :=
  match ((text.dropWhile intSpace).reverse.dropWhile intSpace).reverse with
  | [] => none
  | c :: rest =>
    if c = '-' then (intDigits false rest).map fun ds => -(Nat.ofDigitChars 10 ds 0 : Int)
    else if c = '+' then (intDigits false rest).map fun ds => (Nat.ofDigitChars 10 ds 0 : Int)
    else (intDigits false (c :: rest)).map fun ds => (Nat.ofDigitChars 10 ds 0 : Int)

/-! ### Requests -/

/-- The `ValueError`s of reading a request. -/
inductive SpecError where
  /-- `"pct:auto"` where a concrete strategy is due. -/
  | standalone
  /-- `unknown scheduler`. -/
  | unknown (text : List Char)
  /-- A parameter without an equals sign, by its place. -/
  | notAPair (index : Nat)
  /-- A value that is no integer. -/
  | notAnInt (text : List Char)
deriving DecidableEq, Repr

/-- `dict(part.split("=", 1) for part in parts)`, from part number `i` on. -/
def readParams (i : Nat) (params : List (List Char × List Char)) :
    List (List Char) → Except SpecError (List (List Char × List Char))
  | [] => .ok params
  | part :: rest =>
    match part.dropWhile (· ≠ '=') with
    | [] => .error (.notAPair i)
    | _ :: value => readParams (i + 1) (Dict.put (part.takeWhile (· ≠ '=')) value params) rest

/-- `int(params.get(key, default))`. -/
def intParam (params : List (List Char × List Char)) (key : List Char) (default : Int) :
    Except SpecError Int :=
  match Dict.find key params with
  | none => .ok default
  | some text =>
    match pyInt text with
    | some n => .ok n
    | none => .error (.notAnInt text)

/-- `resolve_scheduler` of `None` or a text. -/
def resolveText : Option (List Char) → Except SpecError Strategy
  | none => .ok .random
  | some spec =>
    if spec = "random".toList then .ok .random
    else if "pct:auto".toList.isPrefixOf spec then .error .standalone
    else if spec = "pct".toList then .ok (.pct 3 4096)
    else if "pct:".toList.isPrefixOf spec then do
      let params ← readParams 0 [] ((spec.drop 4).splitOn ',')
      let depth ← intParam params ['d'] 3
      let horizon ← intParam params ['k'] 4096
      return .pct depth horizon
    else .error (.unknown spec)

/-- `auto_pct_depth` of `None` or a text. -/
def autoDepthText : Option (List Char) → Except SpecError (Option Int)
  | none => .ok none
  | some spec =>
    if "pct:auto".toList.isPrefixOf spec then do
      let params ← readParams 0 []
        ((((spec.drop 8).dropWhile (· == ',')).splitOn ',').filter fun part => !part.isEmpty)
      (intParam params ['d'] 3).map some
    else .ok none

/-! ### Descriptors -/

/-- `f"{key}={n}"`. -/
def paramText (key : Char) (n : Int) : List Char := key :: '=' :: integerText n

/-- `descriptor`. -/
def Strategy.descriptor : Strategy → List Char
  | .random => "random".toList
  | .pct depth horizon => "pct:".toList ++ paramText 'd' depth ++ ',' :: paramText 'k' horizon

/-- The text of a request. -/
def SchedulerSpec.text : SchedulerSpec → Option (List Char)
  | .unspecified => none
  | .random => some "random".toList
  | .pct depth horizon =>
    match (depth.map (paramText 'd')).toList ++ (horizon.map (paramText 'k')).toList with
    | [] => some "pct".toList
    | params => some ("pct:".toList ++ [','].intercalate params)
  | .pctAuto depth => some ("pct:auto".toList ++ (depth.map fun d => ',' :: paramText 'd' d).getD [])

/-! ### What is written is resolved -/

theorem intDigits_of_digits {text : List Char} (h : ∀ c ∈ text, c.isDigit = true) :
    intDigits true text = some text := by
  induction text with
  | nil => rfl
  | cons c rest ih =>
    rw [intDigits, if_pos (h c List.mem_cons_self), ih fun x hx => h x (List.mem_cons_of_mem c hx)]
    rfl

theorem intDigits_toDigits (n : Nat) : intDigits false (Nat.toDigits 10 n) = some (Nat.toDigits 10 n) := by
  cases htext : Nat.toDigits 10 n with
  | nil => exact absurd htext Nat.toDigits_ne_nil
  | cons c ds =>
    have hall : ∀ x ∈ c :: ds, x.isDigit = true := fun x hx =>
      Nat.isDigit_of_mem_toDigits (by decide) (by decide) (htext ▸ hx)
    rw [intDigits, if_pos (hall c List.mem_cons_self),
      intDigits_of_digits fun x hx => hall x (List.mem_cons_of_mem c hx)]
    rfl

theorem continues_integerText (n : Int) : ∀ c ∈ integerText n, continues c = true := by
  have h := continues_numeral (takeNumeral_integerText n)
  simpa [Numeral.text] using h

theorem not_intSpace {c : Char} (h : continues c = true) : intSpace c = false := by
  have hprint := printable_of_continues h
  have hne : c ≠ ' ' := fun hc => absurd h (by rw [hc]; decide)
  simp only [printable, Bool.and_eq_true, decide_eq_true_eq] at hprint
  simp only [intSpace, Bool.or_eq_false_iff, beq_eq_false_iff_ne, Bool.and_eq_false_iff,
    decide_eq_false_iff_not]
  exact ⟨hne, by omega⟩

theorem dropWhile_intSpace {text : List Char} (h : ∀ c ∈ text, continues c = true) :
    text.dropWhile intSpace = text := by
  cases text with
  | nil => rfl
  | cons c rest => rw [List.dropWhile_cons, not_intSpace (h c List.mem_cons_self)]; rfl

theorem pyInt_integerText (n : Int) : pyInt (integerText n) = some n := by
  have hcont := continues_integerText n
  have hstrip : (((integerText n).dropWhile intSpace).reverse.dropWhile intSpace).reverse =
      integerText n := by
    rw [dropWhile_intSpace hcont, dropWhile_intSpace fun c hc => hcont c (List.mem_reverse.mp hc),
      List.reverse_reverse]
  rw [pyInt, hstrip]
  cases n with
  | ofNat n =>
    have hdigits := intDigits_toDigits n
    rw [integerText]
    cases htext : Nat.toDigits 10 n with
    | nil => exact absurd htext Nat.toDigits_ne_nil
    | cons c ds =>
      have hdigit := (digits_toDigits htext).1
      have hminus : c ≠ '-' := fun hc => absurd hdigit (by rw [hc]; decide)
      have hplus : c ≠ '+' := fun hc => absurd hdigit (by rw [hc]; decide)
      rw [htext] at hdigits
      simp only [if_neg hminus, if_neg hplus, hdigits, Option.map_some]
      rw [← htext, Nat.ofDigitChars_ten_toDigits]
      rfl
  | negSucc n =>
    simp only [integerText, if_true, intDigits_toDigits, Option.map_some,
      Nat.ofDigitChars_ten_toDigits]
    rfl

theorem not_mem_integerText (n : Int) {c : Char} (h : continues c = false) : c ∉ integerText n :=
  fun hmem => by
    rw [continues_integerText n c hmem] at h
    exact absurd h (by decide)

theorem readParams_paramText {key : Char} (hkey : key ≠ '=') (n : Int) (i : Nat)
    (params : List (List Char × List Char)) (rest : List (List Char)) :
    readParams i params (paramText key n :: rest) =
      readParams (i + 1) (Dict.put [key] (integerText n) params) rest := by
  simp [readParams, paramText, hkey]

theorem comma_not_mem {key : Char} (hkey : key ≠ ',') (n : Int) : ',' ∉ paramText key n := by
  simp [paramText, Ne.symm hkey, not_mem_integerText n (by decide : continues ',' = false)]

theorem splitOn_params (d k : Int) : (paramText 'd' d ++ ',' :: paramText 'k' k).splitOn ',' =
    [paramText 'd' d, paramText 'k' k] := by
  rw [List.splitOn_append_cons_self_of_not_mem (comma_not_mem (by decide) d),
    List.splitOn_eq_singleton (comma_not_mem (by decide) k)]

/-- Behind `"pct:"` stand parameters, unless the request is for an auto horizon. -/
theorem resolveText_params {key : Char} (hkey : key ≠ 'a') (rest : List Char) :
    resolveText (some ("pct:".toList ++ key :: rest)) =
      (readParams 0 [] ((key :: rest).splitOn ',')).bind fun params =>
        (intParam params ['d'] 3).bind fun depth =>
          (intParam params ['k'] 4096).bind fun horizon => .ok (.pct depth horizon) := by
  have hauto : "pct:auto".toList.isPrefixOf ("pct:".toList ++ key :: rest) = false := by
    simp [List.isPrefixOf, Ne.symm hkey]
  rw [resolveText, if_neg (by simp), hauto, if_neg (by decide), if_neg (by simp), if_pos (by simp)]
  rfl

theorem autoDepthText_params {key : Char} (hkey : key ≠ 'a') (rest : List Char) :
    autoDepthText (some ("pct:".toList ++ key :: rest)) = .ok none := by
  have hauto : "pct:auto".toList.isPrefixOf ("pct:".toList ++ key :: rest) = false := by
    simp [List.isPrefixOf, Ne.symm hkey]
  rw [autoDepthText, hauto, if_neg (by decide)]

theorem splitOn_paramText {key : Char} (hkey : key ≠ ',') (n : Int) :
    (key :: '=' :: integerText n).splitOn ',' = [paramText key n] :=
  List.splitOn_eq_singleton (comma_not_mem hkey n)

/-- One parameter, read and looked up. -/
theorem resolveText_one {key : Char} (hkey : key ≠ 'a') (hcomma : key ≠ ',') (heq : key ≠ '=') (n : Int) :
    resolveText (some ("pct:".toList ++ paramText key n)) =
      (intParam [([key], integerText n)] ['d'] 3).bind fun depth =>
        (intParam [([key], integerText n)] ['k'] 4096).bind fun horizon => .ok (.pct depth horizon) := by
  rw [paramText, resolveText_params hkey, splitOn_paramText hcomma, readParams_paramText heq]
  rfl

theorem resolveText_two (d k : Int) :
    resolveText (some ("pct:".toList ++ (paramText 'd' d ++ ',' :: paramText 'k' k))) =
      .ok (.pct d k) := by
  have hsplit := splitOn_params d k
  rw [paramText, List.cons_append] at hsplit ⊢
  rw [resolveText_params (by decide), hsplit, ← paramText, readParams_paramText (by decide),
    readParams_paramText (by decide)]
  simp [readParams, Dict.put, intParam, Dict.find, pyInt_integerText, Except.bind]

theorem autoDepthText_auto (d : Int) :
    autoDepthText (some ("pct:auto".toList ++ ',' :: paramText 'd' d)) = .ok (some d) := by
  have hprefix : "pct:auto".toList.isPrefixOf ("pct:auto".toList ++ ',' :: paramText 'd' d) = true := by
    simp
  have hparts : ((((("pct:auto".toList ++ ',' :: paramText 'd' d).drop 8).dropWhile (· == ',')).splitOn
      ',').filter fun part => !part.isEmpty) = [paramText 'd' d] := by
    have hdrop : (("pct:auto".toList ++ ',' :: paramText 'd' d).drop 8).dropWhile (· == ',') =
        'd' :: '=' :: integerText d := rfl
    rw [hdrop, splitOn_paramText (by decide)]
    rfl
  rw [autoDepthText, if_pos hprefix, hparts, readParams_paramText (by decide)]
  simp [readParams, Dict.put, intParam, Dict.find, pyInt_integerText, bind, Except.bind, Except.map]

/-- The text of a request resolves as the request does. Only an auto horizon is refused,
and only its text is read as one. -/
theorem resolveText_text (spec : SchedulerSpec) :
    resolveText spec.text = ((resolveScheduler spec).mapError fun _ => .standalone) ∧
      autoDepthText spec.text = .ok (autoPctDepth spec) := by
  cases spec with
  | unspecified => exact ⟨rfl, rfl⟩
  | random => exact ⟨rfl, rfl⟩
  | pct depth horizon =>
    cases depth with
    | none =>
      cases horizon with
      | none => exact ⟨rfl, rfl⟩
      | some k =>
        have htext : (SchedulerSpec.pct none (some k)).text = some ("pct:".toList ++ paramText 'k' k) := by
          simp [SchedulerSpec.text]
        rw [htext]
        refine ⟨?_, autoDepthText_params (by decide) _⟩
        rw [resolveText_one (by decide) (by decide) (by decide)]
        simp [intParam, Dict.find, pyInt_integerText, Except.bind, resolveScheduler, Except.mapError]
    | some d =>
      cases horizon with
      | none =>
        have htext : (SchedulerSpec.pct (some d) none).text = some ("pct:".toList ++ paramText 'd' d) := by
          simp [SchedulerSpec.text]
        rw [htext]
        refine ⟨?_, autoDepthText_params (by decide) _⟩
        rw [resolveText_one (by decide) (by decide) (by decide)]
        simp [intParam, Dict.find, pyInt_integerText, Except.bind, resolveScheduler, Except.mapError]
      | some k =>
        have htext : (SchedulerSpec.pct (some d) (some k)).text =
            some ("pct:".toList ++ (paramText 'd' d ++ ',' :: paramText 'k' k)) := by
          simp [SchedulerSpec.text]
        rw [htext]
        exact ⟨resolveText_two d k, autoDepthText_params (by decide) _⟩
  | pctAuto depth =>
    cases depth with
    | none => exact ⟨rfl, rfl⟩
    | some d => exact ⟨by simp [SchedulerSpec.text, resolveText, resolveScheduler, Except.mapError],
        autoDepthText_auto d⟩

/-- A descriptor resolves to its strategy. -/
theorem resolveText_descriptor (s : Strategy) : resolveText (some s.descriptor) = .ok s := by
  cases s with
  | random => rfl
  | pct depth horizon =>
    rw [Strategy.descriptor, List.append_assoc]
    exact resolveText_two depth horizon

end Simloom
