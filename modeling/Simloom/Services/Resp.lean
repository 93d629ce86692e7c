import Simloom.Services.Redis
import Simloom.Theory.Chunked

/-! The wire of `SimRedis`: commands as bytes.

A command is an array of bulk strings, each behind its length, so that its bytes may be anything.
`_read_command` reads one from a stream that comes in chunks, and gives up where the stream ends
too early: `read_commands`. -/
namespace Simloom.Services
open Theory

/-! ### Lengths in decimal -/

/-- The digits of a length. -/
def decimal (n : Nat) : Bytes := (Nat.toDigits 10 n).map fun c => UInt8.ofNat c.toNat

def IsDecimal (b : UInt8) : Prop := 48 ≤ b ∧ b ≤ 57

theorem printInt_natural {n : Nat} {text : Bytes} (h : printInt n = some text) :
    text = decimal n ∧ (decimal n).length ≤ maxStrDigits := by
  have htext : toString (n : Int) = n.repr := rfl
  unfold printInt at h
  split at h
  next hle =>
    rw [htext] at h
    refine ⟨(Option.some.inj h).symm.trans (by rw [ascii, Nat.toList_repr, decimal]), ?_⟩
    rw [decimal, List.length_map]
    simpa [Nat.repr_eq_ofList_toDigits] using hle
  next => cases h

theorem byte_of_digit {c : Char} (h : c.isDigit = true) :
    IsDecimal (UInt8.ofNat c.toNat) ∧ (UInt8.ofNat c.toNat - 48).toNat = c.toNat - 48 := by
  have hrange : 48 ≤ c.toNat ∧ c.toNat ≤ 57 := by
    simpa [Char.isDigit, UInt32.le_iff_toNat_le] using h
  have hbyte : (UInt8.ofNat c.toNat).toNat = c.toNat := by
    rw [UInt8.toNat_ofNat', Nat.mod_eq_of_lt (by omega)]
  have hdecimal : IsDecimal (UInt8.ofNat c.toNat) := by
    unfold IsDecimal
    rw [UInt8.le_iff_toNat_le, UInt8.le_iff_toNat_le, hbyte]
    exact hrange
  refine ⟨hdecimal, ?_⟩
  rw [UInt8.toNat_sub_of_le _ _ hdecimal.1, hbyte]
  rfl

theorem decimal_isDecimal (n : Nat) : ∀ b ∈ decimal n, IsDecimal b := by
  intro b hb
  obtain ⟨c, hc, rfl⟩ := List.mem_map.mp hb
  exact (byte_of_digit (Nat.isDigit_of_mem_toDigits (by decide) (by decide) hc)).1

theorem decimal_ne_nil (n : Nat) : decimal n ≠ [] := by simp [decimal]

theorem isSpace_of_decimal {b : UInt8} (h : IsDecimal b) : isSpace b = false := by
  unfold IsDecimal at h
  simp only [isSpace, decide_eq_false_iff_not, UInt8.le_iff_toNat_le, ← UInt8.toNat_inj] at h ⊢
  have h48 : (48 : UInt8).toNat = 48 := rfl
  have h57 : (57 : UInt8).toNat = 57 := rfl
  have h32 : (32 : UInt8).toNat = 32 := rfl
  have h13 : (13 : UInt8).toNat = 13 := rfl
  omega

theorem dropWhile_of_decimal {text : Bytes} (hdigits : ∀ b ∈ text, IsDecimal b) :
    text.dropWhile isSpace = text := by
  cases text with
  | nil => rfl
  | cons b rest =>
    rw [List.dropWhile_cons_of_neg]
    simp [isSpace_of_decimal (hdigits b List.mem_cons_self)]

/-- Digits alone have neither spaces nor a sign. -/
theorem parseInt_of_decimal {text : Bytes} (hdigits : ∀ b ∈ text, IsDecimal b) :
    parseInt text = (natural text).map Int.ofNat := by
  have hstrip : strip text = text := by
    unfold strip
    rw [dropWhile_of_decimal hdigits,
      dropWhile_of_decimal fun b hb => hdigits b (List.mem_reverse.mp hb), List.reverse_reverse]
  unfold parseInt
  rw [hstrip]
  split
  · exact absurd (hdigits 45 List.mem_cons_self) (by unfold IsDecimal; decide)
  · exact absurd (hdigits 43 List.mem_cons_self) (by unfold IsDecimal; decide)
  · rfl

theorem digits_of_decimal {text : Bytes} (hdigits : ∀ b ∈ text, IsDecimal b) :
    digits true text = some (text.map fun b => (b - 48).toNat) := by
  induction text with
  | nil => rfl
  | cons b rest ih =>
    have hb : 48 ≤ b ∧ b ≤ 57 := hdigits b List.mem_cons_self
    rw [digits, if_pos hb, ih fun x hx => hdigits x (List.mem_cons_of_mem b hx)]
    rfl

/-- A number that prints is read back. -/
theorem parseInt_decimal {n : Nat} (h : (decimal n).length ≤ maxStrDigits) :
    parseInt (decimal n) = some (n : Int) := by
  have hdigits := decimal_isDecimal n
  obtain ⟨b, rest, hcons⟩ := List.exists_cons_of_ne_nil (decimal_ne_nil n)
  have hb : 48 ≤ b ∧ b ≤ 57 := hdigits b (hcons ▸ List.mem_cons_self)
  have hread : digits false (decimal n) = some ((decimal n).map fun b => (b - 48).toNat) := by
    rw [hcons, digits, if_pos hb, digits_of_decimal fun x hx =>
      hdigits x (hcons ▸ List.mem_cons_of_mem b hx)]
    rfl
  have hvalue : ((decimal n).map fun b => (b - 48).toNat).foldl (fun n d => 10 * n + d) 0 = n := by
    calc ((decimal n).map fun b => (b - 48).toNat).foldl (fun n d => 10 * n + d) 0
      _ = ((Nat.toDigits 10 n).map fun c => c.toNat - 48).foldl (fun n d => 10 * n + d) 0 := by
        rw [decimal, List.map_map]
        congr 1
        refine List.map_congr_left fun c hc => ?_
        exact (byte_of_digit (Nat.isDigit_of_mem_toDigits (by decide) (by decide) hc)).2
      _ = Nat.ofDigitChars 10 (Nat.toDigits 10 n) 0 := by rw [List.foldl_map]; rfl
      _ = n := Nat.ofDigitChars_ten_toDigits
  rw [parseInt_of_decimal hdigits, natural, hread]
  simp only [Option.bind_some, List.length_map, if_pos h, hvalue]
  rfl

/-- What is left of a number that is cut off is a number again, and not zero. -/
theorem decimal_prefix {n : Nat} {text : Bytes} (hn : 0 < n) (h : text <+: decimal n)
    (hne : text ≠ []) : ∃ m, 0 < m ∧ text = decimal m := by
  induction n using Nat.strongRecOn with
  | ind n ih =>
    by_cases hsmall : n < 10
    · have hone : decimal n = [UInt8.ofNat n.digitChar.toNat] := by
        rw [decimal, Nat.toDigits_of_lt_base hsmall]
        rfl
      rw [hone] at h
      rcases List.prefix_cons_iff.mp h with rfl | ⟨rest, rfl, hrest⟩
      · exact absurd rfl hne
      · rw [List.prefix_nil.mp hrest, ← hone]
        exact ⟨n, hn, rfl⟩
    · have hsplit : decimal n = decimal (n / 10) ++ [UInt8.ofNat (n % 10).digitChar.toNat] := by
        rw [decimal, Nat.toDigits_of_base_le (by decide) (by omega), List.map_append]
        rfl
      rcases List.prefix_concat_iff.mp (hsplit ▸ h) with heq | hstart
      · exact ⟨n, hn, heq.trans hsplit.symm⟩
      · exact ih (n / 10) (by omega) (by omega) hstart

/-- Less than all digits of a number are none, or a number that is not zero. -/
theorem parseInt_cut {n : Nat} (hlen : (decimal n).length ≤ maxStrDigits) {text : Bytes}
    (h : text <+: decimal n) (hne : text ≠ decimal n) :
    parseInt text = none ∨ ∃ m : Nat, 0 < m ∧ parseInt text = some (m : Int) := by
  by_cases hnil : text = []
  · exact .inl (by rw [hnil]; rfl)
  · have hn : 0 < n := by
      rcases Nat.eq_zero_or_pos n with rfl | hpos
      · -- the only digit of zero is not cut
        have hzero : decimal 0 = [48] := rfl
        rw [hzero] at h hne
        rcases List.prefix_cons_iff.mp h with rfl | ⟨rest, rfl, hrest⟩
        · exact absurd rfl hnil
        · rw [List.prefix_nil.mp hrest] at hne
          exact absurd rfl hne
      · exact hpos
    obtain ⟨m, hm, rfl⟩ := decimal_prefix hn h hnil
    exact .inr ⟨m, hm, parseInt_decimal (Nat.le_trans h.length_le hlen)⟩

/-! ### The wire -/

abbrev StreamReader := Chunked.Reader UInt8

def crlf : Bytes := [13, 10]

/-- `_bulk`. -/
def bulk : Option Bytes → Option Bytes
  | none => some (ascii "$-1\r\n")
  | some data => (printInt data.length).map fun length => ascii "$" ++ length ++ crlf ++ data ++ crlf

/-- `_array`. -/
def array : Option (List Bytes) → Option Bytes
  | none => some (ascii "*-1\r\n")
  | some items => (printInt items.length).map fun count => ascii "*" ++ count ++ crlf ++ items.flatten

/-- A command on the wire. -/
def encode (command : Command) : Option Bytes :=
  (command.mapM fun arg => bulk (some arg)).bind fun items => array (some items)

def encodeAll (commands : List Command) : Option Bytes := (commands.mapM encode).map List.flatten

def newline (b : UInt8) : Bool := b == 10

/-- `line[1:-2]`. -/
def payload (line : Bytes) : Bytes := (line.take (line.length - 2)).drop 1

/-- `line.split()`. -/
def words (line : Bytes) : List Bytes := (line.splitOnP isSpace).filter fun word => !word.isEmpty

/-- What ends the reading of a command. -/
inductive ReadFault where
  | incompleteRead
  | valueError
deriving DecidableEq

/-- `StreamReader.readexactly`. -/
def readexactly (r : StreamReader) (n : Int) : Except ReadFault (Bytes × StreamReader) :=
  if n < 0 then .error .valueError
  else (r.exactly n.toNat).elim (.error .incompleteRead) .ok

/-- One argument: its header, its bytes and the line end behind them. -/
def readArg (r : StreamReader) : Except ReadFault (Bytes × StreamReader) :=
  let (header, r) := r.line newline
  match parseInt (payload header) with
  | none => .error .valueError
  | some length =>
    match readexactly r length with
    | .error e => .error e
    | .ok (arg, r) =>
      match readexactly r 2 with
      | .error e => .error e
      | .ok (_, r) => .ok (arg, r)

def readArgs (r : StreamReader) : Nat → Except ReadFault (List Bytes × StreamReader)
  | 0 => .ok ([], r)
  | count + 1 =>
    match readArg r with
    | .error e => .error e
    | .ok (arg, r) =>
      match readArgs r count with
      | .error e => .error e
      | .ok (args, r) => .ok (arg :: args, r)

/-- `_read_command`: `none` at the end of the stream, and for what cannot be read. -/
def readCommand (r : StreamReader) : Option (Command × StreamReader) :=
  let (line, r) := r.line newline
  if line.isEmpty then none
  else if line.head? = some 42 then
    match parseInt (payload line) with
    | none => none
    | some count => (readArgs r count.toNat).toOption
  else some (words line, r)

/-- Calls of `_read_command` return the commands, and each takes the bytes of its own from the
stream. -/
inductive Reads : StreamReader → List Command → StreamReader → Prop where
  | done {r} : Reads r [] r
  | next {r r' last : StreamReader} {command : Command} {bytes : Bytes} {rest : List Command}
      (returned : readCommand r = some (command, r')) (own : encode command = some bytes)
      (taken : r.stream = bytes ++ r'.stream) (others : Reads r' rest last) :
      Reads r (command :: rest) last

variable {r : StreamReader}

/-! ### Headers -/

theorem newline_of_decimal {b : UInt8} (h : IsDecimal b) : newline b = false := by
  unfold newline
  rw [beq_eq_false_iff_ne]
  rintro rfl
  exact absurd h (by unfold IsDecimal; decide)

/-- No line ends inside a header. -/
theorem newline_header {a : UInt8} (ha : newline a = false) (n : Nat) :
    ∀ b ∈ a :: decimal n ++ [13], newline b = false := by
  intro b hb
  rcases List.mem_append.mp hb with hb | hb
  · rcases List.mem_cons.mp hb with rfl | hb
    · exact ha
    · exact newline_of_decimal (decimal_isDecimal n b hb)
  · rw [List.mem_singleton.mp hb]
    rfl

theorem line_header {a : UInt8} {n : Nat} {rest : Bytes} (ha : newline a = false)
    (hr : r.stream = a :: decimal n ++ crlf ++ rest) :
    ∃ r', r.line newline = (a :: decimal n ++ crlf, r') ∧ r'.stream = rest := by
  have hsplit : r.stream = (a :: decimal n ++ [13]) ++ 10 :: rest := by
    rw [hr]
    simp [crlf]
  obtain ⟨r', hline, hrest⟩ := Chunked.Reader.line_of_end hsplit (newline_header ha n) rfl
  exact ⟨r', by rw [hline]; simp [crlf], hrest⟩

theorem payload_header (a : UInt8) (n : Nat) : payload (a :: decimal n ++ crlf) = decimal n := by
  simp [payload, crlf]

/-- A header that is cut off has lost a digit. -/
theorem payload_cut {a : UInt8} {n : Nat} {line : Bytes} (h : line <+: a :: decimal n ++ [13]) :
    payload line <+: decimal n ∧ payload line ≠ decimal n := by
  have hpos : 0 < (decimal n).length := List.length_pos_iff.mpr (decimal_ne_nil n)
  have hle := h.length_le
  simp only [List.cons_append, List.length_cons, List.length_append, List.length_nil] at hle
  have hpayload : payload line = (decimal n).take (line.length - 3) := by
    have htake : line.take (line.length - 2) = (a :: decimal n ++ [13]).take (line.length - 2) := by
      obtain ⟨rest, hrest⟩ := h
      rw [← hrest, List.take_append_of_le_length (by omega)]
    calc payload line
      _ = ((a :: decimal n ++ [13]).take (line.length - 2)).drop 1 := by rw [payload, htake]
      _ = (decimal n ++ [13]).take (line.length - 3) := by
        rw [List.drop_take]
        rfl
      _ = (decimal n).take (line.length - 3) := List.take_append_of_le_length (by omega)
  rw [hpayload]
  refine ⟨List.take_prefix _ _, fun heq => ?_⟩
  have hlen := congrArg List.length heq
  rw [List.length_take] at hlen
  omega

/-- The prefixes of a concatenation. -/
theorem prefix_append_cases {α : Type} {p a b : List α} (h : p <+: a ++ b) :
    p <+: a ∧ p ≠ a ∨ ∃ q, p = a ++ q ∧ q <+: b := by
  rcases Nat.lt_or_ge p.length a.length with hlt | hge
  · refine .inl ⟨List.prefix_of_prefix_length_le h (List.prefix_append a b) (by omega), ?_⟩
    rintro rfl
    omega
  · obtain ⟨q, rfl⟩ := List.prefix_of_prefix_length_le (List.prefix_append a b) h hge
    exact .inr ⟨q, rfl, (List.prefix_append_right_inj a).mp h⟩

/-- A header that is cut off is no number, or one that is not zero, and nothing comes behind it. -/
theorem line_cut {a : UInt8} {n : Nat} (ha : newline a = false)
    (hlen : (decimal n).length ≤ maxStrDigits) (hr : r.stream <+: a :: decimal n ++ crlf)
    (hne : r.stream ≠ a :: decimal n ++ crlf) :
    ∃ r', r.line newline = (r.stream, r') ∧ r'.stream = [] ∧
      (parseInt (payload r.stream) = none ∨
        ∃ m : Nat, 0 < m ∧ parseInt (payload r.stream) = some (m : Int)) := by
  have hcrlf : a :: decimal n ++ crlf = (a :: decimal n ++ [13]) ++ [10] := by simp [crlf]
  rw [hcrlf] at hr hne
  replace hr := (List.prefix_concat_iff.mp hr).resolve_left hne
  obtain ⟨r', hline, hend⟩ := Chunked.Reader.line_of_none newline r
    fun b hb => newline_header ha n b (hr.subset hb)
  obtain ⟨hstart, hshort⟩ := payload_cut hr
  exact ⟨r', hline, hend, parseInt_cut hlen hstart hshort⟩

/-! ### Arguments -/

theorem mapM_cons_eq_some {α β : Type} {f : α → Option β} {a : α} {l : List α} {bs : List β}
    (h : (a :: l).mapM f = some bs) :
    ∃ b, f a = some b ∧ ∃ more, l.mapM f = some more ∧ bs = b :: more := by
  rw [List.mapM_cons] at h
  obtain ⟨b, hb, h⟩ := Option.bind_eq_some_iff.mp h
  obtain ⟨more, hmore, h⟩ := Option.bind_eq_some_iff.mp h
  exact ⟨b, hb, more, hmore, (Option.some.inj h).symm⟩

theorem readexactly_of_append {data rest : Bytes} (h : r.stream = data ++ rest) :
    ∃ r', readexactly r data.length = .ok (data, r') ∧ r'.stream = rest := by
  obtain ⟨r', hread, hrest⟩ := Chunked.Reader.exactly_of_append h
  refine ⟨r', ?_, hrest⟩
  rw [readexactly, if_neg (by omega), Int.toNat_natCast, hread]
  rfl

theorem readexactly_of_lt {n : Nat} (h : r.stream.length < n) :
    readexactly r n = .error .incompleteRead := by
  rw [readexactly, if_neg (by omega), Int.toNat_natCast, Chunked.Reader.exactly_of_lt h]
  rfl

/-- The bytes of an argument. -/
theorem bulk_eq_some {arg bytes : Bytes} (h : bulk (some arg) = some bytes) :
    bytes = 36 :: decimal arg.length ++ crlf ++ (arg ++ crlf) ∧
      (decimal arg.length).length ≤ maxStrDigits := by
  obtain ⟨text, htext, rfl⟩ := Option.map_eq_some_iff.mp h
  obtain ⟨rfl, hlen⟩ := printInt_natural htext
  refine ⟨?_, hlen⟩
  have hdollar : ascii "$" = [36] := by decide
  rw [hdollar]
  simp

theorem readArg_whole {arg bytes rest : Bytes} (henc : bulk (some arg) = some bytes)
    (hr : r.stream = bytes ++ rest) : ∃ r', readArg r = .ok (arg, r') ∧ r'.stream = rest := by
  obtain ⟨rfl, hlen⟩ := bulk_eq_some henc
  rw [List.append_assoc] at hr
  obtain ⟨r₁, hline, hr₁⟩ := line_header (by decide) hr
  rw [List.append_assoc] at hr₁
  obtain ⟨r₂, hdata, hr₂⟩ := readexactly_of_append hr₁
  obtain ⟨r₃, hend, hr₃⟩ := readexactly_of_append hr₂
  refine ⟨r₃, ?_, hr₃⟩
  rw [readArg, hline]
  simp only [payload_header, parseInt_decimal hlen, hdata]
  rw [show (2 : Int) = (crlf.length : Nat) from rfl, hend]

/-- Nothing is left to read of an argument. -/
theorem readArg_nil (h : r.stream = []) : readArg r = .error .valueError := by
  obtain ⟨r', hline, -⟩ := Chunked.Reader.line_of_none newline r (by simp [h])
  rw [readArg, hline, h]
  rfl

theorem readArg_cut {arg bytes : Bytes} (henc : bulk (some arg) = some bytes)
    (hr : r.stream <+: bytes) (hne : r.stream ≠ bytes) : ∃ e, readArg r = .error e := by
  obtain ⟨rfl, hlen⟩ := bulk_eq_some henc
  rcases prefix_append_cases hr with ⟨hhead, hshort⟩ | ⟨q, hq, hrest⟩
  · -- in the header
    obtain ⟨r', hline, hend, hnone | ⟨m, hm, hsome⟩⟩ := line_cut (by decide) hlen hhead hshort
    · exact ⟨.valueError, by rw [readArg, hline]; simp only [hnone]⟩
    · refine ⟨.incompleteRead, ?_⟩
      have hempty : r'.stream.length < m := by rwa [hend]
      rw [readArg, hline]
      simp only [hsome, readexactly_of_lt hempty]
  · obtain ⟨r₁, hline, hr₁⟩ := line_header (by decide) hq
    refine ⟨.incompleteRead, ?_⟩
    rw [readArg, hline]
    simp only [payload_header, parseInt_decimal hlen]
    rcases prefix_append_cases hrest with ⟨hdata, hshort⟩ | ⟨q', rfl, hend⟩
    · -- in the bytes
      have hlt : r₁.stream.length < arg.length := by
        rw [hr₁]
        exact Nat.lt_of_le_of_ne hdata.length_le fun heq => hshort (hdata.eq_of_length heq)
      rw [readexactly_of_lt hlt]
    · -- in the line end behind them
      obtain ⟨r₂, hdata, hr₂⟩ := readexactly_of_append hr₁
      have hlt : r₂.stream.length < 2 := by
        rw [hr₂]
        refine Nat.lt_of_le_of_ne hend.length_le fun heq => hne ?_
        rw [hq, hend.eq_of_length heq]
      rw [hdata]
      simp only
      rw [show (2 : Int) = (2 : Nat) from rfl, readexactly_of_lt hlt]

/-- The arguments of a command, on the wire. -/
theorem readArgs_whole {args items : List Bytes} {rest : Bytes}
    (henc : args.mapM (fun arg => bulk (some arg)) = some items)
    (hr : r.stream = items.flatten ++ rest) :
    ∃ r', readArgs r args.length = .ok (args, r') ∧ r'.stream = rest := by
  induction args generalizing items r with
  | nil =>
    obtain rfl := Option.some.inj henc
    exact ⟨r, rfl, hr⟩
  | cons arg args ih =>
    obtain ⟨bytes, hbytes, more, hmore, rfl⟩ := mapM_cons_eq_some henc
    rw [List.flatten_cons, List.append_assoc] at hr
    obtain ⟨r₁, harg, hr₁⟩ := readArg_whole hbytes hr
    obtain ⟨r₂, hargs, hr₂⟩ := ih hmore hr₁
    refine ⟨r₂, ?_, hr₂⟩
    rw [List.length_cons, readArgs, harg]
    simp only [hargs]

theorem readArgs_cut {args items : List Bytes}
    (henc : args.mapM (fun arg => bulk (some arg)) = some items)
    (hr : r.stream <+: items.flatten) (hne : r.stream ≠ items.flatten) :
    ∃ e, readArgs r args.length = .error e := by
  induction args generalizing items r with
  | nil =>
    obtain rfl := Option.some.inj henc
    exact absurd (List.prefix_nil.mp hr) hne
  | cons arg args ih =>
    obtain ⟨bytes, hbytes, more, hmore, rfl⟩ := mapM_cons_eq_some henc
    rw [List.flatten_cons] at hr hne
    rw [List.length_cons, readArgs]
    rcases prefix_append_cases hr with ⟨hcut, hshort⟩ | ⟨q, hq, hrest⟩
    · obtain ⟨e, he⟩ := readArg_cut hbytes hcut hshort
      exact ⟨e, by rw [he]⟩
    · obtain ⟨r₁, harg, hr₁⟩ := readArg_whole hbytes hq
      obtain ⟨e, he⟩ := ih hmore (hr₁ ▸ hrest) fun heq => hne (by rw [hq, ← heq, hr₁])
      exact ⟨e, by rw [harg]; simp only [he]⟩

/-! ### Commands -/

theorem mapM_length {α β : Type} {f : α → Option β} {l : List α} {bs : List β}
    (h : l.mapM f = some bs) : bs.length = l.length := by
  induction l generalizing bs with
  | nil =>
    obtain rfl := Option.some.inj h
    rfl
  | cons a l ih =>
    obtain ⟨b, -, more, hmore, rfl⟩ := mapM_cons_eq_some h
    rw [List.length_cons, List.length_cons, ih hmore]

theorem encode_eq_some {command : Command} {bytes : Bytes} (h : encode command = some bytes) :
    ∃ items, command.mapM (fun arg => bulk (some arg)) = some items ∧
      bytes = 42 :: decimal command.length ++ crlf ++ items.flatten ∧
      (decimal command.length).length ≤ maxStrDigits := by
  obtain ⟨items, hitems, harray⟩ := Option.bind_eq_some_iff.mp h
  obtain ⟨text, htext, rfl⟩ := Option.map_eq_some_iff.mp harray
  rw [mapM_length hitems] at htext
  obtain ⟨rfl, hlen⟩ := printInt_natural htext
  refine ⟨items, hitems, ?_, hlen⟩
  have hstar : ascii "*" = [42] := by decide
  rw [hstar]
  rfl

theorem readCommand_whole {command : Command} {bytes rest : Bytes}
    (henc : encode command = some bytes) (hr : r.stream = bytes ++ rest) :
    ∃ r', readCommand r = some (command, r') ∧ r'.stream = rest := by
  obtain ⟨items, hitems, rfl, hlen⟩ := encode_eq_some henc
  rw [List.append_assoc] at hr
  obtain ⟨r₁, hline, hr₁⟩ := line_header (by decide) hr
  obtain ⟨r₂, hargs, hr₂⟩ := readArgs_whole hitems hr₁
  refine ⟨r₂, ?_, hr₂⟩
  rw [readCommand, hline]
  simp only [payload_header, parseInt_decimal hlen, Int.toNat_natCast, hargs]
  rfl

theorem readCommand_nil (h : r.stream = []) : readCommand r = none := by
  obtain ⟨r', hline, -⟩ := Chunked.Reader.line_of_none newline r (by simp [h])
  rw [readCommand, hline, h]
  rfl

/-- Arguments are expected, and none comes. -/
theorem readArgs_nil (h : r.stream = []) {count : Nat} (hcount : 0 < count) :
    readArgs r count = .error .valueError := by
  obtain ⟨n, rfl⟩ := Nat.exists_eq_add_of_lt hcount
  rw [Nat.zero_add, readArgs, readArg_nil h]

theorem readCommand_cut {command : Command} {bytes : Bytes} (henc : encode command = some bytes)
    (hr : r.stream <+: bytes) (hne : r.stream ≠ bytes) : readCommand r = none := by
  by_cases hnil : r.stream = []
  · exact readCommand_nil hnil
  obtain ⟨items, hitems, rfl, hlen⟩ := encode_eq_some henc
  rcases prefix_append_cases hr with ⟨hhead, hshort⟩ | ⟨q, hq, hrest⟩
  · -- in the header of the array
    obtain ⟨r', hline, hend, hcount⟩ := line_cut (by decide) hlen hhead hshort
    obtain ⟨tail, htail⟩ : ∃ tail, r.stream = 42 :: tail := by
      rcases List.prefix_cons_iff.mp hhead with heq | ⟨tail, htail, -⟩
      · exact absurd heq hnil
      · exact ⟨tail, htail⟩
    rw [readCommand, hline]
    dsimp only
    rw [if_neg (by simp [hnil]), if_pos (by simp [htail])]
    rcases hcount with hnone | ⟨m, hm, hsome⟩
    · rw [hnone]
    · simp only [hsome, Int.toNat_natCast, readArgs_nil hend hm]
      rfl
  · -- in an argument
    obtain ⟨r₁, hline, hr₁⟩ := line_header (by decide) hq
    obtain ⟨e, he⟩ := readArgs_cut hitems (hr₁ ▸ hrest) fun heq => hne (by rw [hq, ← heq, hr₁])
    rw [readCommand, hline]
    simp only [payload_header, parseInt_decimal hlen, Int.toNat_natCast, he]
    rfl

/-! ### Streams of commands -/

/-- What is left of a stream that ends inside the next command, or behind the last one. -/
def CutShort (left : Bytes) : List Command → Prop
  | [] => left = []
  | command :: _ => ∃ bytes, encode command = some bytes ∧ left <+: bytes ∧ left ≠ bytes

/-- From a stream of commands, cut off anywhere and in any chunks, the commands that have come
whole are read, one after another, each with its own bytes, and then nothing. -/
theorem read_commands {commands : List Command} {wire : Bytes}
    (henc : encodeAll commands = some wire) {r : StreamReader} (hr : r.stream <+: wire) :
    ∃ whole rest last, commands = whole ++ rest ∧ Reads r whole last ∧ readCommand last = none ∧
      CutShort last.stream rest ∧ (r.stream = wire → rest = []) := by
  obtain ⟨items, hitems, rfl⟩ := Option.map_eq_some_iff.mp henc
  clear henc
  induction commands generalizing items r with
  | nil =>
    obtain rfl := Option.some.inj hitems
    have hend := List.prefix_nil.mp hr
    exact ⟨[], [], r, rfl, .done, readCommand_nil hend, hend, fun _ => rfl⟩
  | cons command commands ih =>
    obtain ⟨bytes, hbytes, more, hmore, rfl⟩ := mapM_cons_eq_some hitems
    rw [List.flatten_cons] at hr
    rcases prefix_append_cases hr with ⟨hcut, hshort⟩ | ⟨q, hq, hrest⟩
    · refine ⟨[], command :: commands, r, rfl, .done, readCommand_cut hbytes hcut hshort,
        ⟨bytes, hbytes, hcut, hshort⟩, fun heq => ?_⟩
      have hlen := hcut.length_le
      rw [heq, List.flatten_cons, List.length_append] at hlen
      exact absurd (hcut.eq_of_length_le (by rw [heq]; simp)) hshort
    · obtain ⟨r₁, hread, hr₁⟩ := readCommand_whole hbytes hq
      obtain ⟨whole, rest, last, hsplit, hreads, hnone, hcut, hall⟩ :=
        ih more hmore (hr₁ ▸ hrest)
      refine ⟨command :: whole, rest, last, by rw [hsplit, List.cons_append],
        .next hread hbytes (by rw [hq, hr₁]) hreads, hnone, hcut, fun heq => hall ?_⟩
      rw [hq, List.flatten_cons] at heq
      rw [hr₁, List.append_cancel_left heq]

/-- Bytes that look like headers, an empty string, and a command that has not come whole, in chunks
that end anywhere. -/
theorem read_commands_sample : ∃ whole rest last,
    [[ascii "GET", ascii "\r\n*1$"], [ascii "SET", [], ascii "v"]] = whole ++ rest ∧
    Reads ⟨ascii "*2\r", [ascii "\n$3\r\nGET\r\n$5\r\n\r", ascii "\n*1$\r\n*3\r\n$3\r\nSE"]⟩
      whole last ∧ readCommand last = none ∧ CutShort last.stream rest := by
  obtain ⟨whole, rest, last, hsplit, hreads, hnone, hcut, -⟩ := @read_commands
    [[ascii "GET", ascii "\r\n*1$"], [ascii "SET", [], ascii "v"]]
    (ascii "*2\r\n$3\r\nGET\r\n$5\r\n\r\n*1$\r\n*3\r\n$3\r\nSET\r\n$0\r\n\r\n$1\r\nv\r\n") (by decide +kernel)
    ⟨ascii "*2\r", [ascii "\n$3\r\nGET\r\n$5\r\n\r", ascii "\n*1$\r\n*3\r\n$3\r\nSE"]⟩ (by decide +kernel)
  exact ⟨whole, rest, last, hsplit, hreads, hnone, hcut⟩

end Simloom.Services
