import Simloom.Format.Text
import Simloom.Theory.Dict

/-! Reading JSON text: `json.loads`.

The reader goes down the text with fuel; `loads` gives it twice the length of the
text, which is as much as it can use. What is written in any layout is read back. -/
namespace Simloom
open Theory.Lexical Theory

namespace Json

/-! ### The reader -/

/-- `WHITESPACE`. -/
def white (c : Char) : Bool := c == ' ' || c == '\t' || c == '\n' || c == '\r'

def skip (text : List Char) : List Char := text.dropWhile white

/-- The text behind an expected character. -/
def expect (c : Char) : List Char → Option (List Char)
  | [] => none
  | x :: rest => if x = c then some rest else none

/-- The text behind an expected word. -/
def expectWord : List Char → List Char → Option (List Char)
  | [], text => some text
  | c :: word, text => (expect c text).bind (expectWord word)

/-- `dict(pairs)`: a key keeps its first place and takes its last value. -/
def ofPairs (pairs : List (String × Json)) : List (String × Json) :=
  pairs.foldl (fun fields p => Dict.put p.1 p.2 fields) []

variable (F : FloatText)

/-- The number at the front: an integer unless it has a fraction or an exponent. -/
def scanNumber (text : List Char) : Option (Json × List Char) :=
  (takeNumeral text).map fun r =>
    (if r.1.isInteger then .int (readInteger r.1.integer) else .float (F.read r.1.text), r.2)

mutual

/-- `scan_once`: the value at the front and the text behind it. -/
def scanOnce : Nat → List Char → Option (Json × List Char)
  | 0, _ => none
  | _ + 1, [] => none
  | fuel + 1, c :: rest =>
    if c = '"' then (unquote rest).map fun r => (.str (String.ofList r.1), r.2)
    else if c = '{' then
      match expect '}' (skip rest) with
      | some rest => some (.obj [], rest)
      | none =>
        (expect '"' (skip rest)).bind fun rest =>
          (scanMembers fuel rest).map fun r => (.obj (ofPairs r.1), r.2)
    else if c = '[' then
      match expect ']' (skip rest) with
      | some rest => some (.arr [], rest)
      | none => (scanItems fuel (skip rest)).map fun r => (.arr r.1, r.2)
    else if c = 'n' then (expectWord ['u', 'l', 'l'] rest).map fun rest => (.null, rest)
    else if c = 't' then (expectWord ['r', 'u', 'e'] rest).map fun rest => (.bool true, rest)
    else if c = 'f' then (expectWord ['a', 'l', 's', 'e'] rest).map fun rest => (.bool false, rest)
    else scanNumber F (c :: rest)

/-- The loop of `JSONArray`: from the front of an item to behind the bracket. -/
def scanItems : Nat → List Char → Option (List Json × List Char)
  | 0, _ => none
  | fuel + 1, text =>
    (scanOnce fuel text).bind fun r =>
      match expect ']' (skip r.2) with
      | some rest => some ([r.1], rest)
      | none =>
        (expect ',' (skip r.2)).bind fun rest =>
          (scanItems fuel (skip rest)).map fun s => (r.1 :: s.1, s.2)

/-- The loop of `JSONObject`: from behind a key's quote to behind the brace. -/
def scanMembers : Nat → List Char → Option (List (String × Json) × List Char)
  | 0, _ => none
  | fuel + 1, text =>
    (unquote text).bind fun key =>
      (expect ':' (skip key.2)).bind fun rest =>
        (scanOnce fuel (skip rest)).bind fun r =>
          match expect '}' (skip r.2) with
          | some rest => some ([(String.ofList key.1, r.1)], rest)
          | none =>
            (expect ',' (skip r.2)).bind fun rest =>
              (expect '"' (skip rest)).bind fun rest =>
                (scanMembers fuel rest).map fun s => ((String.ofList key.1, r.1) :: s.1, s.2)

end

/-! ### Reading takes from the front -/

theorem skip_length (text : List Char) : (skip text).length ≤ text.length :=
  (List.dropWhile_suffix white).length_le

theorem expect_length {c : Char} {text rest : List Char} (h : expect c text = some rest) :
    rest.length < text.length := by
  cases text with
  | nil => simp [expect] at h
  | cons x text =>
    simp only [expect] at h
    split at h
    next =>
      obtain rfl := Option.some.inj h
      simp
    next => simp at h

theorem expectWord_length {word text rest : List Char} (h : expectWord word text = some rest) :
    rest.length ≤ text.length := by
  induction word generalizing text with
  | nil =>
    obtain rfl := Option.some.inj h
    exact Nat.le_refl _
  | cons c word ih =>
    obtain ⟨mid, hmid, hrest⟩ := Option.bind_eq_some_iff.mp h
    exact (ih hrest).trans (expect_length hmid).le

theorem scanNumber_length {text : List Char} {r : Json × List Char} (h : scanNumber F text = some r) :
    r.2.length < text.length := by
  obtain ⟨r', hr, rfl⟩ := Option.map_eq_some_iff.mp h
  exact takeNumeral_length hr

/-- What each part of the reader leaves is shorter than what it was given. -/
theorem scan_length (fuel : Nat) :
    (∀ text r, scanOnce F fuel text = some r → r.2.length < text.length) ∧
    (∀ text r, scanItems F fuel text = some r → r.2.length < text.length) ∧
    (∀ text r, scanMembers F fuel text = some r → r.2.length < text.length) := by
  induction fuel with
  | zero => simp [scanOnce, scanItems, scanMembers]
  | succ fuel ih =>
    obtain ⟨ihOnce, ihItems, ihMembers⟩ := ih
    refine ⟨?_, ?_, ?_⟩
    · intro text r hr
      cases text with
      | nil => simp [scanOnce] at hr
      | cons c rest =>
        have hskip := skip_length rest
        rw [List.length_cons]
        simp only [scanOnce] at hr
        split_ifs at hr
        · obtain ⟨s, hs, rfl⟩ := Option.map_eq_some_iff.mp hr
          exact (unquote_length rest s hs).trans (by omega)
        · split at hr
          next rest' hclose =>
            obtain rfl := Option.some.inj hr
            exact (expect_length hclose).trans (by omega)
          next =>
            obtain ⟨mid, hmid, hr⟩ := Option.bind_eq_some_iff.mp hr
            obtain ⟨s, hs, rfl⟩ := Option.map_eq_some_iff.mp hr
            exact (ihMembers mid s hs).trans ((expect_length hmid).trans (by omega))
        · split at hr
          next rest' hclose =>
            obtain rfl := Option.some.inj hr
            exact (expect_length hclose).trans (by omega)
          next =>
            obtain ⟨s, hs, rfl⟩ := Option.map_eq_some_iff.mp hr
            exact (ihItems _ s hs).trans (by omega)
        all_goals try
          obtain ⟨s, hs, rfl⟩ := Option.map_eq_some_iff.mp hr
          exact (expectWord_length hs).trans_lt (by omega)
        exact scanNumber_length F hr
    · intro text r hr
      obtain ⟨v, hv, hr⟩ := Option.bind_eq_some_iff.mp (by simpa only [scanItems] using hr)
      have hlt := ihOnce text v hv
      have hskip := skip_length v.2
      split at hr
      next rest' hclose =>
        obtain rfl := Option.some.inj hr
        exact (expect_length hclose).trans (by omega)
      next =>
        obtain ⟨mid, hmid, hr⟩ := Option.bind_eq_some_iff.mp hr
        obtain ⟨s, hs, rfl⟩ := Option.map_eq_some_iff.mp hr
        have hlast := ihItems _ s hs
        have hcomma := expect_length hmid
        have hmidskip := skip_length mid
        simp only
        omega
    · intro text r hr
      obtain ⟨key, hkey, hr⟩ := Option.bind_eq_some_iff.mp (by simpa only [scanMembers] using hr)
      obtain ⟨rest, hrest, hr⟩ := Option.bind_eq_some_iff.mp hr
      obtain ⟨v, hv, hr⟩ := Option.bind_eq_some_iff.mp hr
      have hkeylt := unquote_length text key hkey
      have hcolon := expect_length hrest
      have hlt := ihOnce _ v hv
      have hskips := And.intro (skip_length key.2) (And.intro (skip_length rest) (skip_length v.2))
      split at hr
      next rest' hclose =>
        obtain rfl := Option.some.inj hr
        have := expect_length hclose
        simp only
        omega
      next =>
        obtain ⟨mid, hmid, hr⟩ := Option.bind_eq_some_iff.mp hr
        obtain ⟨mid', hmid', hr⟩ := Option.bind_eq_some_iff.mp hr
        obtain ⟨s, hs, rfl⟩ := Option.map_eq_some_iff.mp hr
        have hlast := ihMembers _ s hs
        have hcomma := expect_length hmid
        have hquote := expect_length hmid'
        have hmidskip := skip_length mid
        simp only
        omega

/-- Fuel beyond twice the length of the text changes nothing. -/
theorem scan_fuel (n : Nat) : ∀ m,
    (∀ text, 2 * text.length + 1 ≤ n → 2 * text.length + 1 ≤ m →
      scanOnce F n text = scanOnce F m text) ∧
    (∀ text, 2 * text.length + 2 ≤ n → 2 * text.length + 2 ≤ m →
      scanItems F n text = scanItems F m text) ∧
    (∀ text, 2 * text.length + 1 ≤ n → 2 * text.length + 1 ≤ m →
      scanMembers F n text = scanMembers F m text) := by
  induction n with
  | zero => intro m; refine ⟨?_, ?_, ?_⟩ <;> intro text hn <;> omega
  | succ n ih =>
    intro m
    cases m with
    | zero => refine ⟨?_, ?_, ?_⟩ <;> intro text _ hm <;> omega
    | succ m =>
      obtain ⟨ihOnce, ihItems, ihMembers⟩ := ih m
      refine ⟨?_, ?_, ?_⟩
      · intro text hn hm
        cases text with
        | nil => rfl
        | cons c rest =>
          have hskip := skip_length rest
          rw [List.length_cons] at hn hm
          have hitems := ihItems (skip rest) (by omega) (by omega)
          have hmembers : ∀ mid, expect '"' (skip rest) = some mid →
              scanMembers F n mid = scanMembers F m mid := fun mid hmid => by
            have := expect_length hmid
            exact ihMembers mid (by omega) (by omega)
          simp only [scanOnce, hitems]
          split_ifs <;> try rfl
          split
          · rfl
          · exact Option.bind_congr fun mid hmid => by rw [hmembers mid hmid]
      · intro text hn hm
        rw [scanItems, scanItems, ihOnce text (by omega) (by omega)]
        refine Option.bind_congr fun v hv => ?_
        have hlt := (scan_length F m).1 text v hv
        have hskip := skip_length v.2
        split
        · rfl
        · refine Option.bind_congr fun rest hrest => ?_
          have hcomma := expect_length hrest
          have hrestskip := skip_length rest
          rw [ihItems _ (by omega) (by omega)]
      · intro text hn hm
        rw [scanMembers, scanMembers]
        refine Option.bind_congr fun key hkey => Option.bind_congr fun rest hrest => ?_
        have hkeylt := unquote_length text key hkey
        have hcolon := expect_length hrest
        have hskips := And.intro (skip_length key.2) (skip_length rest)
        rw [ihOnce _ (by omega) (by omega)]
        refine Option.bind_congr fun v hv => ?_
        have hlt := (scan_length F m).1 _ v hv
        have hskip := skip_length v.2
        split
        · rfl
        · refine Option.bind_congr fun mid hmid => Option.bind_congr fun mid' hmid' => ?_
          have hcomma := expect_length hmid
          have hquote := expect_length hmid'
          have hmidskip := skip_length mid
          rw [ihMembers _ (by omega) (by omega)]

/-- `json.loads(text)`; `none` is a `JSONDecodeError`. -/
def loads (text : List Char) : Option Json :=
  (scanOnce F (2 * text.length + 1) (skip text)).bind fun r =>
    if skip r.2 = [] then some r.1 else none

/-! ### What is written is read back -/

theorem ofPairs_of_nodup {pairs : List (String × Json)} (h : (pairs.map Prod.fst).Nodup) :
    ofPairs pairs = pairs := by
  suffices ∀ fields : List (String × Json), ((fields ++ pairs).map Prod.fst).Nodup →
      pairs.foldl (fun fields p => Dict.put p.1 p.2 fields) fields = fields ++ pairs from this [] h
  clear h
  induction pairs with
  | nil => simp
  | cons p rest ih =>
    intro fields h
    have hnot : p.1 ∉ fields.map Prod.fst := by
      rw [List.map_append, List.map_cons] at h
      exact fun hmem => (List.nodup_append.mp h).2.2 p.1 hmem p.1 List.mem_cons_self rfl
    rw [List.foldl_cons, Dict.put_of_not_mem p.2 hnot, ih _ (by simpa using h)]
    simp

def Blank (text : List Char) : Prop := ∀ c ∈ text, white c = true

theorem skip_blank {pad : List Char} (h : Blank pad) (text : List Char) :
    skip (pad ++ text) = skip text := List.dropWhile_append_of_pos h

theorem skip_cons {c : Char} (h : white c = false) (text : List Char) :
    skip (c :: text) = c :: text := by
  simp [skip, h]

theorem skip_pad {pad : List Char} (hpad : Blank pad) {c : Char} (h : white c = false)
    (text : List Char) : skip (pad ++ c :: text) = c :: text := by
  rw [skip_blank hpad, skip_cons h]

theorem blank_replicate (n : Nat) : Blank (List.replicate n ' ') := fun c hc => by
  rw [List.eq_of_mem_replicate hc]
  rfl

theorem blank_newline (l : Layout) (level : Nat) : Blank (l.newline level) := fun c hc => by
  unfold Layout.newline at hc
  split at hc
  · simp at hc
  · rcases List.mem_cons.mp hc with rfl | hc
    · rfl
    · exact blank_replicate _ c hc

theorem expect_same (c : Char) (text : List Char) : expect c (c :: text) = some text := if_pos rfl

theorem expect_other {c x : Char} (h : x ≠ c) (text : List Char) : expect c (x :: text) = none :=
  if_neg h

/-- The first character of a value: no blank, and no bracket that closes. -/
def Opens (c : Char) : Prop := white c = false ∧ c ≠ ']' ∧ c ≠ '}'

instance (c : Char) : Decidable (Opens c) := inferInstanceAs (Decidable (_ ∧ _))

theorem numeral_head {a : List Char} {r : Numeral × List Char} (h : takeNumeral a = some r) :
    ∃ c t, a = c :: t ∧ Opens c ∧ c ≠ '"' ∧ c ≠ '{' ∧ c ≠ '[' ∧ c ≠ 'n' ∧ c ≠ 't' ∧ c ≠ 'f' := by
  obtain ⟨c, t, rfl, hc⟩ := takeNumeral_head h
  have hne : ∀ x, x ≠ '-' → x.isDigit = false → c ≠ x := fun x hminus hdigit heq => by
    rcases hc with hc | hc
    · exact hminus (heq ▸ hc)
    · rw [heq, hdigit] at hc
      exact absurd hc (by decide)
  refine ⟨c, t, rfl, ⟨?_, hne _ (by decide) (by decide), hne _ (by decide) (by decide)⟩, ?_⟩
  · simp only [white, Bool.or_eq_false_iff, beq_eq_false_iff_ne]
    exact ⟨⟨⟨hne _ (by decide) (by decide), hne _ (by decide) (by decide)⟩,
      hne _ (by decide) (by decide)⟩, hne _ (by decide) (by decide)⟩
  · exact ⟨hne _ (by decide) (by decide), hne _ (by decide) (by decide),
      hne _ (by decide) (by decide), hne _ (by decide) (by decide), hne _ (by decide) (by decide),
      hne _ (by decide) (by decide)⟩

variable {F}

theorem write_head (l : Layout) (level : Nat) {v : Json} (hv : v.Proper F) :
    ∃ c t, write F l level v = c :: t ∧ Opens c := by
  cases v with
  | null => exact ⟨'n', _, rfl, by decide⟩
  | bool b => cases b <;> exact ⟨_, _, rfl, by decide⟩
  | int n =>
    obtain ⟨c, t, htext, hc, -⟩ := numeral_head (takeNumeral_integerText n)
    exact ⟨c, t, htext, hc⟩
  | float x =>
    obtain ⟨n, hn, -⟩ := F.numeral x hv
    obtain ⟨c, t, htext, hc, -⟩ := numeral_head hn
    exact ⟨c, t, htext, hc⟩
  | str s => exact ⟨'"', _, rfl, by decide⟩
  | arr items => cases items <;> exact ⟨'[', _, rfl, by decide⟩
  | obj fields => cases fields <;> exact ⟨'{', _, rfl, by decide⟩

/-- The text of a number is read as the number. -/
theorem scanOnce_number {fuel : Nat} {a : List Char} {n : Numeral}
    (h : takeNumeral a = some (n, [])) {rest : List Char} (hstop : Stops rest) :
    scanOnce F (fuel + 1) (a ++ rest) = some
      (if n.isInteger then .int (readInteger n.integer) else .float (F.read n.text), rest) := by
  obtain ⟨c, t, rfl, -, hquote, hbrace, hbracket, hn, ht, hf⟩ := numeral_head h
  rw [List.cons_append, scanOnce, if_neg hquote, if_neg hbrace, if_neg hbracket, if_neg hn, if_neg ht,
    if_neg hf, ← List.cons_append, scanNumber, takeNumeral_append hstop, h]
  rfl

theorem stops_of_white {c : Char} (h : white c = true) (rest : List Char) : Stops (c :: rest) := by
  apply stops_cons
  simp only [white, Bool.or_eq_true, beq_iff_eq] at h
  rcases h with ((rfl | rfl) | rfl) | rfl <;> decide

/-- No numeral runs on into blanks and what it does not run on into. -/
theorem stops_pad {pad : List Char} (hpad : Blank pad) {c : Char} (hc : continues c = false)
    (rest : List Char) : Stops (pad ++ c :: rest) := by
  cases pad with
  | nil => exact stops_cons hc
  | cons x pad => exact stops_of_white (hpad x List.mem_cons_self) _

/-- Reading the first item as a value and the further ones behind their separators. -/
def ReadsBack (F : FloatText) (l : Layout) (level : Nat) (v : Json) : Prop :=
  ∀ fuel rest, Stops rest → 2 * (write F l level v ++ rest).length + 1 ≤ fuel →
    scanOnce F fuel (write F l level v ++ rest) = some (v, rest)

theorem blank_separator (l : Layout) (level : Nat) :
    Blank (List.replicate l.afterComma ' ' ++ l.newline level) := fun c hc =>
  (List.mem_append.mp hc).elim (blank_replicate _ c) (blank_newline l level c)

theorem scanItems_last {l : Layout} {level : Nat} {v : Json} (hv : ReadsBack F l level v)
    {pad : List Char} (hpad : Blank pad) (rest : List Char) {fuel : Nat}
    (hfuel : 2 * (write F l level v ++ (pad ++ ']' :: rest)).length + 2 ≤ fuel) :
    scanItems F fuel (write F l level v ++ (pad ++ ']' :: rest)) = some ([v], rest) := by
  obtain ⟨fuel, rfl⟩ : ∃ f, fuel = f + 1 := ⟨fuel - 1, by omega⟩
  rw [scanItems, hv fuel _ (stops_pad hpad (by decide) _) (by omega)]
  simp only [Option.bind_some, skip_pad hpad (by decide : white ']' = false), expect_same]

theorem scanItems_more {l : Layout} {level : Nat} {v w : Json} (hv : ReadsBack F l level v)
    (hw : w.Proper F) (text : List Char) {fuel : Nat}
    (hfuel : 2 * (write F l level v ++ (l.separator level ++ (write F l level w ++ text))).length + 2
      ≤ fuel + 1) :
    scanItems F (fuel + 1) (write F l level v ++ (l.separator level ++ (write F l level w ++ text))) =
      (scanItems F fuel (write F l level w ++ text)).map fun s => (v :: s.1, s.2) := by
  obtain ⟨c, t, htext, hopen⟩ := write_head l level hw
  have hcomma : Stops (l.separator level ++ (write F l level w ++ text)) := stops_cons (by decide)
  have hskip : skip (List.replicate l.afterComma ' ' ++ l.newline level ++ (write F l level w ++ text)) =
      write F l level w ++ text := by
    rw [htext, List.cons_append, skip_pad (blank_separator l level) hopen.1]
  rw [scanItems, hv fuel _ hcomma (by omega)]
  simp only [Option.bind_some, Layout.separator, List.cons_append,
    skip_cons (by decide : white ',' = false), expect_other (by decide : ',' ≠ ']'), expect_same, hskip]

theorem scanMembers_last {l : Layout} {level : Nat} {v : Json} (hv : ReadsBack F l level v)
    (hproper : v.Proper F) (key : String) {pad : List Char} (hpad : Blank pad) (rest : List Char)
    {fuel : Nat}
    (hfuel : 2 * (key.toList.flatMap escape ++ '"' :: (l.colon ++
      (write F l level v ++ (pad ++ '}' :: rest)))).length + 1 ≤ fuel) :
    scanMembers F fuel (key.toList.flatMap escape ++ '"' :: (l.colon ++
      (write F l level v ++ (pad ++ '}' :: rest)))) = some ([(key, v)], rest) := by
  obtain ⟨fuel, rfl⟩ : ∃ f, fuel = f + 1 := ⟨fuel - 1, by omega⟩
  obtain ⟨c, t, htext, hopen⟩ := write_head l level hproper
  have hskip : skip (List.replicate l.afterColon ' ' ++ (write F l level v ++ (pad ++ '}' :: rest))) =
      write F l level v ++ (pad ++ '}' :: rest) := by
    rw [htext, List.cons_append, skip_pad (blank_replicate _) hopen.1]
  have hread := hv fuel (pad ++ '}' :: rest) (stops_pad hpad (by decide) _) (by
    simp only [List.length_append, List.length_cons] at hfuel ⊢
    omega)
  rw [scanMembers, unquote_escapes]
  simp only [Option.bind_some, Layout.colon, List.cons_append,
    skip_cons (by decide : white ':' = false), expect_same, hskip, hread,
    skip_pad hpad (by decide : white '}' = false), String.ofList_toList]

theorem scanMembers_more {l : Layout} {level : Nat} {v : Json} (hv : ReadsBack F l level v)
    (hproper : v.Proper F) (key : String) (text : List Char) {fuel : Nat}
    (hfuel : 2 * (key.toList.flatMap escape ++ '"' :: (l.colon ++
      (write F l level v ++ (l.separator level ++ '"' :: text)))).length + 1 ≤ fuel + 1) :
    scanMembers F (fuel + 1) (key.toList.flatMap escape ++ '"' :: (l.colon ++
      (write F l level v ++ (l.separator level ++ '"' :: text)))) =
      (scanMembers F fuel text).map fun s => ((key, v) :: s.1, s.2) := by
  obtain ⟨c, t, htext, hopen⟩ := write_head l level hproper
  have hskip : skip (List.replicate l.afterColon ' ' ++
      (write F l level v ++ (l.separator level ++ '"' :: text))) =
      write F l level v ++ (l.separator level ++ '"' :: text) := by
    rw [htext, List.cons_append, skip_pad (blank_replicate _) hopen.1]
  have hread := hv fuel (l.separator level ++ '"' :: text) (stops_cons (by decide)) (by
    simp only [List.length_append, List.length_cons] at hfuel ⊢
    omega)
  rw [scanMembers, unquote_escapes]
  simp only [Option.bind_some, Layout.colon, List.cons_append,
    skip_cons (by decide : white ':' = false), expect_same, hskip, hread]
  simp only [Layout.separator, List.cons_append, skip_cons (by decide : white ',' = false),
    expect_other (by decide : ',' ≠ '}'), expect_same, Option.bind_some,
    skip_pad (blank_separator l level) (by decide : white '"' = false), String.ofList_toList]

mutual

/-- A value is read back from any layout of it. -/
theorem readsBack (l : Layout) : ∀ (v : Json) (level : Nat), v.Proper F → ReadsBack F l level v
  | .null, level, _ => fun fuel rest _ hfuel => by
    obtain ⟨fuel, rfl⟩ : ∃ f, fuel = f + 1 := ⟨fuel - 1, by omega⟩
    simp [write, scanOnce, expectWord, expect]
  | .bool b, level, _ => fun fuel rest _ hfuel => by
    obtain ⟨fuel, rfl⟩ : ∃ f, fuel = f + 1 := ⟨fuel - 1, by omega⟩
    cases b <;> simp [write, scanOnce, expectWord, expect]
  | .int n, level, _ => fun fuel rest hstop hfuel => by
    obtain ⟨fuel, rfl⟩ : ∃ f, fuel = f + 1 := ⟨fuel - 1, by omega⟩
    rw [write, scanOnce_number (takeNumeral_integerText n) hstop, readInteger_integerText]
    rfl
  | .float x, level, hx => fun fuel rest hstop hfuel => by
    obtain ⟨fuel, rfl⟩ : ∃ f, fuel = f + 1 := ⟨fuel - 1, by omega⟩
    obtain ⟨n, hn, hfloat⟩ := F.numeral x hx
    have htext : n.text = F.repr x := by simpa using takeNumeral_text hn
    rw [write, scanOnce_number hn hstop, hfloat, htext, F.read_repr x hx]
    rfl
  | .str s, level, _ => fun fuel rest _ hfuel => by
    obtain ⟨fuel, rfl⟩ : ∃ f, fuel = f + 1 := ⟨fuel - 1, by omega⟩
    rw [write, quote, List.cons_append, List.append_assoc, scanOnce, if_pos rfl]
    simp [unquote_escapes]
  | .arr [], level, _ => fun fuel rest _ hfuel => by
    obtain ⟨fuel, rfl⟩ : ∃ f, fuel = f + 1 := ⟨fuel - 1, by omega⟩
    simp [write, scanOnce, skip, white, expect]
  | .arr (v :: items), level, hproper => fun fuel rest _ hfuel => by
    obtain ⟨fuel, rfl⟩ : ∃ f, fuel = f + 1 := ⟨fuel - 1, by omega⟩
    have hv : v.Proper F := hproper.1
    obtain ⟨c, t, htext, hopen⟩ := write_head l (level + 1) hv
    have hbody := scanItems_write l items v (level + 1) hv (readsBack l v (level + 1) hv) hproper.2
      (l.newline level) (blank_newline l level) rest fuel (by
        simp only [write, List.length_append, List.length_cons] at hfuel ⊢
        omega)
    have hskip : skip (l.newline (level + 1) ++ (write F l (level + 1) v ++
        (writeItems F l (level + 1) items ++ (l.newline level ++ ']' :: rest)))) =
        write F l (level + 1) v ++
          (writeItems F l (level + 1) items ++ (l.newline level ++ ']' :: rest)) := by
      rw [htext, List.cons_append, skip_pad (blank_newline l _) hopen.1]
    have hclose : expect ']' (write F l (level + 1) v ++
        (writeItems F l (level + 1) items ++ (l.newline level ++ ']' :: rest))) = none := by
      rw [htext, List.cons_append, expect_other hopen.2.1]
    rw [write, List.cons_append, scanOnce, if_neg (by decide), if_neg (by decide), if_pos rfl]
    simp only [List.append_assoc, List.cons_append, List.nil_append, hskip, hclose, hbody,
      Option.map_some]
  | .obj [], level, _ => fun fuel rest _ hfuel => by
    obtain ⟨fuel, rfl⟩ : ∃ f, fuel = f + 1 := ⟨fuel - 1, by omega⟩
    simp [write, scanOnce, skip, white, expect]
  | .obj ((key, v) :: fields), level, hproper => fun fuel rest _ hfuel => by
    obtain ⟨fuel, rfl⟩ : ∃ f, fuel = f + 1 := ⟨fuel - 1, by omega⟩
    have hv : v.Proper F := hproper.2.1
    have hbody := scanMembers_write l fields key v (level + 1) hv (readsBack l v (level + 1) hv)
      hproper.2.2 (l.newline level) (blank_newline l level) rest fuel (by
        simp only [write, quote, List.length_append, List.length_cons] at hfuel ⊢
        omega)
    rw [write, quote, List.cons_append, scanOnce, if_neg (by decide), if_pos rfl]
    simp only [List.append_assoc, List.cons_append, List.nil_append,
      skip_pad (blank_newline l (level + 1)) (by decide : white '"' = false),
      expect_other (by decide : '"' ≠ '}'), expect_same, Option.bind_some, hbody,
      Option.map_some, ofPairs_of_nodup hproper.1]

theorem scanItems_write (l : Layout) : ∀ (items : List Json) (v : Json) (level : Nat),
    v.Proper F → ReadsBack F l level v → ProperItems F items →
    ∀ pad, Blank pad → ∀ rest fuel,
      2 * (write F l level v ++ (writeItems F l level items ++ (pad ++ ']' :: rest))).length + 2 ≤ fuel →
      scanItems F fuel (write F l level v ++ (writeItems F l level items ++ (pad ++ ']' :: rest))) =
        some (v :: items, rest)
  | [], v, level, _, hback, _, pad, hpad, rest, fuel, hfuel => by
    rw [writeItems, List.nil_append] at hfuel ⊢
    exact scanItems_last hback hpad rest hfuel
  | w :: items, v, level, hv, hback, hproper, pad, hpad, rest, fuel, hfuel => by
    obtain ⟨fuel, rfl⟩ : ∃ f, fuel = f + 1 := ⟨fuel - 1, by omega⟩
    have hmore := scanItems_write l items w level hproper.1 (readsBack l w level hproper.1) hproper.2
      pad hpad rest fuel (by
        simp only [writeItems, Layout.separator, List.length_append, List.length_cons] at hfuel ⊢
        omega)
    rw [writeItems, List.append_assoc, List.append_assoc] at hfuel ⊢
    rw [scanItems_more hback hproper.1 _ hfuel, hmore]
    rfl

theorem scanMembers_write (l : Layout) : ∀ (fields : List (String × Json)) (key : String) (v : Json)
    (level : Nat), v.Proper F → ReadsBack F l level v → ProperFields F fields →
    ∀ pad, Blank pad → ∀ rest fuel,
      2 * (key.toList.flatMap escape ++ '"' :: (l.colon ++ (write F l level v ++
        (writeFields F l level fields ++ (pad ++ '}' :: rest))))).length + 1 ≤ fuel →
      scanMembers F fuel (key.toList.flatMap escape ++ '"' :: (l.colon ++ (write F l level v ++
        (writeFields F l level fields ++ (pad ++ '}' :: rest))))) = some ((key, v) :: fields, rest)
  | [], key, v, level, hv, hback, _, pad, hpad, rest, fuel, hfuel => by
    rw [writeFields, List.nil_append] at hfuel ⊢
    exact scanMembers_last hback hv key hpad rest hfuel
  | (next, w) :: fields, key, v, level, hv, hback, hproper, pad, hpad, rest, fuel, hfuel => by
    obtain ⟨fuel, rfl⟩ : ∃ f, fuel = f + 1 := ⟨fuel - 1, by omega⟩
    have hmore := scanMembers_write l fields next w level hproper.1 (readsBack l w level hproper.1)
      hproper.2 pad hpad rest fuel (by
        simp only [writeFields, quote, Layout.separator, List.length_append, List.length_cons]
          at hfuel ⊢
        omega)
    simp only [writeFields, quote, List.append_assoc, List.cons_append, List.nil_append] at hfuel ⊢
    rw [scanMembers_more hback hv key _ hfuel, hmore]
    rfl

end

/-- `json.loads(json.dumps(value))` is the value, in every layout. -/
theorem loads_write (l : Layout) {v : Json} (hv : v.Proper F) : loads F (write F l 0 v) = some v := by
  obtain ⟨c, t, htext, hopen⟩ := write_head l 0 hv
  have hskip : skip (write F l 0 v) = write F l 0 v := by rw [htext, skip_cons hopen.1]
  have hread := readsBack l v 0 hv (2 * (write F l 0 v).length + 1) [] stops_nil (by simp)
  rw [List.append_nil] at hread
  rw [loads, hskip, hread]
  rfl

end Json
end Simloom
