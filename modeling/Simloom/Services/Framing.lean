import Simloom.Services.Answer
import Simloom.Services.Resp

/-! Replies as bytes.

No reply is the beginning of another one (`wire_free`), so that bytes can be read as one list of
replies only (`replies_free`). -/
namespace Simloom.Services
open Theory

/-! ### Replies as bytes -/

def simple (text : Bytes) : Bytes := ascii "+" ++ text ++ crlf

def error (text : Bytes) : Bytes := ascii "-" ++ text ++ crlf

/-- `_integer`. -/
def integer (value : Int) : Option Bytes := (printInt value).map fun text => ascii ":" ++ text ++ crlf

mutual

/-- What is written for a reply, unless one of its numbers is too long to be printed. -/
def Reply.wire : Reply → Option Bytes
  | .simple text => some (Services.simple text)
  | .error text => some (Services.error text)
  | .integer value => Services.integer value
  | .bulk data => Services.bulk data
  | .array none => Services.array none
  | .array (some items) => (wireAll items).bind fun parts => Services.array (some parts)

def wireAll : List Reply → Option (List Bytes)
  | [] => some []
  | reply :: rest => reply.wire.bind fun bytes => (wireAll rest).map (bytes :: ·)

end

/-! ### No reply begins another -/

theorem hasCrlf_tail {b : UInt8} {rest : Bytes} (h : hasCrlf (b :: rest) = false) :
    hasCrlf rest = false := by
  unfold hasCrlf at h
  split at h
  · cases h
  next heq => rwa [(List.cons.inj heq).2]
  next heq => cases heq

/-- A line ends at its first line end. -/
theorem line_free {text text' rest rest' : Bytes} (h : hasCrlf text = false)
    (h' : hasCrlf text' = false) (heq : text ++ crlf ++ rest = text' ++ crlf ++ rest') :
    text = text' ∧ rest = rest' := by
  induction text generalizing text' with
  | nil =>
    rcases text' with _ | ⟨b, _ | ⟨c, more⟩⟩
    · exact ⟨rfl, by simpa [crlf] using heq⟩
    · simp [crlf] at heq
    · obtain ⟨rfl, rfl, _⟩ : b = 13 ∧ c = 10 ∧ _ := by simpa [crlf, eq_comm] using heq
      simp [hasCrlf] at h'
  | cons b text ih =>
    rcases text' with _ | ⟨b', text'⟩
    · rcases text with _ | ⟨c, more⟩
      · simp [crlf] at heq
      · obtain ⟨rfl, rfl, _⟩ : b = 13 ∧ c = 10 ∧ _ := by simpa [crlf] using heq
        simp [hasCrlf] at h
    · obtain ⟨rfl, hrest⟩ := List.cons.inj heq
      obtain ⟨rfl, hsame⟩ := ih (hasCrlf_tail h) (hasCrlf_tail h') hrest
      exact ⟨rfl, hsame⟩

theorem hasCrlf_of_ne {text : Bytes} (h : ∀ b ∈ text, b ≠ 13) : hasCrlf text = false := by
  have happend := hasCrlf_append h []
  rwa [List.append_nil] at happend

theorem ne_cr_of_decimal {b : UInt8} (h : IsDecimal b) : b ≠ 13 := by
  rintro rfl
  exact absurd h (by unfold IsDecimal; decide)

theorem decimal_inj {m n : Nat} (hm : (decimal m).length ≤ maxStrDigits)
    (h : decimal m = decimal n) : m = n := by
  have hread := parseInt_decimal hm
  rw [h, parseInt_decimal (h ▸ hm)] at hread
  exact (Int.ofNat.inj (Option.some.inj hread)).symm

theorem printInt_negative {n : Nat} {text : Bytes} (h : printInt (Int.negSucc n) = some text) :
    text = 45 :: decimal (n + 1) ∧ (decimal (n + 1)).length ≤ maxStrDigits := by
  have htext : toString (Int.negSucc n) = "-" ++ (n + 1).repr := rfl
  have hnat : toString (n + 1) = (n + 1).repr := rfl
  unfold printInt at h
  rw [Int.natAbs_negSucc] at h
  split at h
  next hle =>
    rw [htext] at h
    refine ⟨(Option.some.inj h).symm.trans ?_, ?_⟩
    · rw [ascii, String.toList_append, List.map_append, Nat.toList_repr]
      rfl
    · rw [decimal, List.length_map]
      simpa [hnat, Nat.repr_eq_ofList_toDigits] using hle
  next => cases h

theorem printInt_shape {value : Int} {text : Bytes} (h : printInt value = some text) :
    ∃ n : Nat, (decimal n).length ≤ maxStrDigits ∧
      (value = n ∧ text = decimal n ∨ value = -(n : Int) ∧ text = 45 :: decimal n) := by
  cases value with
  | ofNat n =>
    obtain ⟨htext, hlen⟩ := printInt_natural h
    exact ⟨n, hlen, .inl ⟨rfl, htext⟩⟩
  | negSucc n =>
    obtain ⟨htext, hlen⟩ := printInt_negative h
    exact ⟨n + 1, hlen, .inr ⟨rfl, htext⟩⟩

theorem minus_not_decimal : ¬ IsDecimal 45 := by unfold IsDecimal; decide

/-- A decimal has no sign. -/
theorem decimal_ne_minus (m : Nat) (rest : Bytes) : decimal m ≠ 45 :: rest := by
  intro h
  exact minus_not_decimal (decimal_isDecimal m 45 (h ▸ List.mem_cons_self))

theorem printInt_inj {v w : Int} {text : Bytes} (hv : printInt v = some text)
    (hw : printInt w = some text) : v = w := by
  obtain ⟨m, hm, ⟨rfl, htext⟩ | ⟨rfl, htext⟩⟩ := printInt_shape hv <;>
    obtain ⟨n, hn, ⟨rfl, htext'⟩ | ⟨rfl, htext'⟩⟩ := printInt_shape hw
  · rw [decimal_inj hm (htext.symm.trans htext')]
  · exact absurd (htext.symm.trans htext') (decimal_ne_minus m _)
  · exact absurd (htext'.symm.trans htext) (decimal_ne_minus n _)
  · rw [decimal_inj hm (List.cons.inj (htext.symm.trans htext')).2]

theorem printInt_noCrlf {value : Int} {text : Bytes} (h : printInt value = some text) :
    hasCrlf text = false := by
  obtain ⟨n, _, ⟨_, rfl⟩ | ⟨_, rfl⟩⟩ := printInt_shape h
  · exact hasCrlf_of_ne fun b hb => ne_cr_of_decimal (decimal_isDecimal n b hb)
  · rw [hasCrlf_cons (by decide)]
    exact hasCrlf_of_ne fun b hb => ne_cr_of_decimal (decimal_isDecimal n b hb)

/-- The first byte of a reply. -/
def Reply.tag : Reply → UInt8
  | .simple _ => 43
  | .error _ => 45
  | .integer _ => 58
  | .bulk _ => 36
  | .array _ => 42

/-- What stands in the first line, and what comes behind it. -/
theorem bulk_shape {data : Option Bytes} {bytes : Bytes} (h : bulk data = some bytes) :
    ∃ text body, bytes = 36 :: text ++ crlf ++ body ∧ hasCrlf text = false ∧
      ((data = none ∧ text = [45, 49] ∧ body = []) ∨
        ∃ arg, data = some arg ∧ text = decimal arg.length ∧ body = arg ++ crlf ∧
          (decimal arg.length).length ≤ maxStrDigits) := by
  cases data with
  | none =>
    refine ⟨[45, 49], [], ?_, by decide, .inl ⟨rfl, rfl, rfl⟩⟩
    exact (Option.some.inj h).symm.trans (by decide)
  | some arg =>
    obtain ⟨rfl, hlen⟩ := bulk_eq_some h
    refine ⟨decimal arg.length, arg ++ crlf, rfl, ?_, .inr ⟨arg, rfl, rfl, rfl, hlen⟩⟩
    exact hasCrlf_of_ne fun b hb => ne_cr_of_decimal (decimal_isDecimal _ b hb)

theorem array_shape {parts : Option (List Bytes)} {bytes : Bytes} (h : array parts = some bytes) :
    ∃ text body, bytes = 42 :: text ++ crlf ++ body ∧ hasCrlf text = false ∧
      ((parts = none ∧ text = [45, 49] ∧ body = []) ∨
        ∃ items, parts = some items ∧ text = decimal items.length ∧ body = items.flatten ∧
          (decimal items.length).length ≤ maxStrDigits) := by
  cases parts with
  | none =>
    refine ⟨[45, 49], [], ?_, by decide, .inl ⟨rfl, rfl, rfl⟩⟩
    exact (Option.some.inj h).symm.trans (by decide)
  | some items =>
    obtain ⟨text, htext, rfl⟩ := Option.map_eq_some_iff.mp h
    obtain ⟨rfl, hlen⟩ := printInt_natural htext
    refine ⟨decimal items.length, items.flatten, ?_, ?_, .inr ⟨items, rfl, rfl, rfl, hlen⟩⟩
    · have hstar : ascii "*" = [42] := by decide
      rw [hstar]
      rfl
    · exact hasCrlf_of_ne fun b hb => ne_cr_of_decimal (decimal_isDecimal _ b hb)

theorem wire_head {reply : Reply} {bytes : Bytes} (h : reply.wire = some bytes) :
    ∃ body, bytes = reply.tag :: body := by
  cases reply with
  | simple text | error text =>
    rw [Reply.wire] at h
    exact ⟨_, (Option.some.inj h).symm⟩
  | integer value =>
    rw [Reply.wire] at h
    obtain ⟨text, _, rfl⟩ := Option.map_eq_some_iff.mp h
    exact ⟨_, rfl⟩
  | bulk data =>
    rw [Reply.wire] at h
    obtain ⟨text, body, rfl, _⟩ := bulk_shape h
    exact ⟨_, rfl⟩
  | array items =>
    cases items with
    | none =>
      rw [Reply.wire] at h
      obtain ⟨text, body, rfl, _⟩ := array_shape h
      exact ⟨_, rfl⟩
    | some items =>
      rw [Reply.wire] at h
      obtain ⟨parts, _, harray⟩ := Option.bind_eq_some_iff.mp h
      obtain ⟨text, body, rfl, _⟩ := array_shape harray
      exact ⟨_, rfl⟩

theorem wireAll_cons {reply : Reply} {rest : List Reply} {parts : List Bytes}
    (h : wireAll (reply :: rest) = some parts) :
    ∃ bytes more, reply.wire = some bytes ∧ wireAll rest = some more ∧ parts = bytes :: more := by
  rw [wireAll] at h
  obtain ⟨bytes, hbytes, hmap⟩ := Option.bind_eq_some_iff.mp h
  obtain ⟨more, hmore, rfl⟩ := Option.map_eq_some_iff.mp hmap
  exact ⟨bytes, more, hbytes, hmore, rfl⟩

theorem wireAll_length {replies : List Reply} {parts : List Bytes}
    (h : wireAll replies = some parts) : parts.length = replies.length := by
  induction replies generalizing parts with
  | nil => rw [← Option.some.inj h]; rfl
  | cons reply rest ih =>
    obtain ⟨bytes, more, _, hmore, rfl⟩ := wireAll_cons h
    rw [List.length_cons, List.length_cons, ih hmore]

/-- The reply is told from every other one, whatever comes behind them. -/
def Free (reply : Reply) : Prop :=
  ∀ ⦃other : Reply⦄ ⦃bytes bytes' rest rest' : Bytes⦄, other.Framed → reply.wire = some bytes →
    other.wire = some bytes' → bytes ++ rest = bytes' ++ rest' → reply = other ∧ rest = rest'

/-- As many replies on both sides. -/
theorem wireAll_free {replies others : List Reply} {parts parts' : List Bytes}
    {rest rest' : Bytes} (hfree : ∀ reply ∈ replies, Free reply)
    (hothers : ∀ other ∈ others, other.Framed) (hlen : replies.length = others.length)
    (h : wireAll replies = some parts) (h' : wireAll others = some parts')
    (heq : parts.flatten ++ rest = parts'.flatten ++ rest') : replies = others ∧ rest = rest' := by
  induction replies generalizing others parts parts' with
  | nil =>
    obtain rfl := List.eq_nil_of_length_eq_zero hlen.symm
    rw [← Option.some.inj h, ← Option.some.inj h'] at heq
    exact ⟨rfl, heq⟩
  | cons reply replies ih =>
    obtain ⟨other, others, rfl⟩ := List.exists_cons_of_length_pos
      (show 0 < others.length by rw [← hlen]; exact Nat.succ_pos _)
    obtain ⟨hreply, hreplies⟩ := List.forall_mem_cons.mp hfree
    obtain ⟨hother, hrest⟩ := List.forall_mem_cons.mp hothers
    obtain ⟨bytes, more, hbytes, hmore, rfl⟩ := wireAll_cons h
    obtain ⟨bytes', more', hbytes', hmore', rfl⟩ := wireAll_cons h'
    rw [List.flatten_cons, List.flatten_cons, List.append_assoc, List.append_assoc] at heq
    obtain ⟨rfl, hsame⟩ := hreply hother hbytes hbytes' heq
    obtain ⟨rfl, hend⟩ := ih hreplies hrest (Nat.succ.inj hlen) hmore hmore' hsame
    exact ⟨rfl, hend⟩

theorem array_free {items others : List Reply} {bytes bytes' rest rest' : Bytes}
    (hfree : ∀ item ∈ items, Free item) (hothers : ∀ other ∈ others, other.Framed)
    (h : (Reply.array (some items)).wire = some bytes)
    (h' : (Reply.array (some others)).wire = some bytes')
    (heq : bytes ++ rest = bytes' ++ rest') : items = others ∧ rest = rest' := by
  rw [Reply.wire] at h h'
  obtain ⟨parts, hparts, h⟩ := Option.bind_eq_some_iff.mp h
  obtain ⟨parts', hparts', h'⟩ := Option.bind_eq_some_iff.mp h'
  obtain ⟨text, body, rfl, hcr, ⟨hnone, _⟩ | ⟨_, hsome, htext, hbody, hlen⟩⟩ := array_shape h
  · cases hnone
  obtain ⟨text', body', rfl, hcr', ⟨hnone, _⟩ | ⟨_, hsome', htext', hbody', _⟩⟩ := array_shape h'
  · cases hnone
  obtain rfl := Option.some.inj hsome
  obtain rfl := Option.some.inj hsome'
  simp only [List.cons_append, List.append_assoc] at heq
  have hline := (List.cons.inj heq).2
  rw [← List.append_assoc, ← List.append_assoc text'] at hline
  obtain ⟨hcount, hitems⟩ := line_free hcr hcr' hline
  rw [htext, htext'] at hcount
  have hlength := decimal_inj hlen hcount
  rw [wireAll_length hparts, wireAll_length hparts'] at hlength
  rw [hbody, hbody'] at hitems
  exact wireAll_free hfree hothers hlength hparts hparts' hitems

/-- The nil array is no array. -/
theorem array_not_nil {items : List Reply} {bytes bytes' rest rest' : Bytes}
    (h : (Reply.array (some items)).wire = some bytes)
    (h' : (Reply.array none).wire = some bytes') : bytes ++ rest ≠ bytes' ++ rest' := by
  intro heq
  rw [Reply.wire] at h
  rw [Reply.wire] at h'
  obtain ⟨parts, _, h⟩ := Option.bind_eq_some_iff.mp h
  obtain ⟨text, body, rfl, hcr, ⟨hnone, _⟩ | ⟨_, _, htext, _⟩⟩ := array_shape h
  · cases hnone
  obtain ⟨text', body', rfl, hcr', ⟨_, htext', _⟩ | ⟨_, hsome, _⟩⟩ := array_shape h'
  · simp only [List.cons_append, List.append_assoc] at heq
    have hline := (List.cons.inj heq).2
    rw [← List.append_assoc, ← List.append_assoc text'] at hline
    have hcount := (line_free hcr hcr' hline).1
    rw [htext, htext'] at hcount
    exact decimal_ne_minus _ _ hcount
  · cases hsome

theorem bulk_free {data other : Option Bytes} {bytes bytes' rest rest' : Bytes}
    (h : bulk data = some bytes) (h' : bulk other = some bytes')
    (heq : bytes ++ rest = bytes' ++ rest') : data = other ∧ rest = rest' := by
  obtain ⟨text, body, rfl, hcr, hshape⟩ := bulk_shape h
  obtain ⟨text', body', rfl, hcr', hshape'⟩ := bulk_shape h'
  simp only [List.cons_append, List.append_assoc] at heq
  have hline := (List.cons.inj heq).2
  rw [← List.append_assoc, ← List.append_assoc text'] at hline
  obtain ⟨rfl, hbody⟩ := line_free hcr hcr' hline
  rcases hshape with ⟨rfl, htext, rfl⟩ | ⟨arg, rfl, htext, rfl, hlen⟩ <;>
    rcases hshape' with ⟨rfl, htext', rfl⟩ | ⟨arg', rfl, htext', rfl, _⟩
  · exact ⟨rfl, hbody⟩
  · exact absurd (htext'.symm.trans htext) (decimal_ne_minus _ _)
  · exact absurd (htext.symm.trans htext') (decimal_ne_minus _ _)
  · have hlength := decimal_inj hlen (htext.symm.trans htext')
    rw [List.append_assoc, List.append_assoc] at hbody
    obtain ⟨rfl, hend⟩ := List.append_inj hbody hlength
    exact ⟨rfl, List.append_cancel_left hend⟩

theorem line_reply_free {a : UInt8} {text text' rest rest' : Bytes} (h : hasCrlf text = false)
    (h' : hasCrlf text' = false)
    (heq : [a] ++ text ++ crlf ++ rest = [a] ++ text' ++ crlf ++ rest') :
    text = text' ∧ rest = rest' := by
  simp only [List.cons_append, List.nil_append] at heq
  exact line_free h h' (List.cons.inj heq).2

theorem tag_eq {reply other : Reply} {bytes bytes' rest rest' : Bytes}
    (h : reply.wire = some bytes) (h' : other.wire = some bytes')
    (heq : bytes ++ rest = bytes' ++ rest') : reply.tag = other.tag := by
  obtain ⟨body, rfl⟩ := wire_head h
  obtain ⟨body', rfl⟩ := wire_head h'
  exact (List.cons.inj heq).1

/-- No reply is the beginning of another one: where two and what comes behind them agree, they are
the same. -/
theorem wire_free {reply : Reply} (hframed : reply.Framed) : Free reply := by
  induction hframed with
  | @simple text hcr =>
    intro other bytes bytes' rest rest' hother h h' heq
    have htag := tag_eq h h' heq
    cases hother with
    | simple hcr' =>
      rw [Reply.wire] at h h'
      rw [← Option.some.inj h, ← Option.some.inj h'] at heq
      obtain ⟨rfl, hrest⟩ := line_reply_free hcr hcr' heq
      exact ⟨rfl, hrest⟩
    | error | integer | bulk | nil | array => simp [Reply.tag] at htag
  | @error text hcr =>
    intro other bytes bytes' rest rest' hother h h' heq
    have htag := tag_eq h h' heq
    cases hother with
    | error hcr' =>
      rw [Reply.wire] at h h'
      rw [← Option.some.inj h, ← Option.some.inj h'] at heq
      obtain ⟨rfl, hrest⟩ := line_reply_free hcr hcr' heq
      exact ⟨rfl, hrest⟩
    | simple | integer | bulk | nil | array => simp [Reply.tag] at htag
  | integer value =>
    intro other bytes bytes' rest rest' hother h h' heq
    have htag := tag_eq h h' heq
    cases hother with
    | integer value' =>
      rw [Reply.wire] at h h'
      obtain ⟨text, htext, rfl⟩ := Option.map_eq_some_iff.mp h
      obtain ⟨text', htext', rfl⟩ := Option.map_eq_some_iff.mp h'
      obtain ⟨rfl, hrest⟩ :=
        line_reply_free (printInt_noCrlf htext) (printInt_noCrlf htext') heq
      exact ⟨by rw [printInt_inj htext htext'], hrest⟩
    | simple | error | bulk | nil | array => simp [Reply.tag] at htag
  | bulk data =>
    intro other bytes bytes' rest rest' hother h h' heq
    have htag := tag_eq h h' heq
    cases hother with
    | bulk data' =>
      rw [Reply.wire] at h h'
      obtain ⟨rfl, hrest⟩ := bulk_free h h' heq
      exact ⟨rfl, hrest⟩
    | simple | error | integer | nil | array => simp [Reply.tag] at htag
  | nil =>
    intro other bytes bytes' rest rest' hother h h' heq
    have htag := tag_eq h h' heq
    cases hother with
    | nil =>
      obtain rfl := Option.some.inj (h.symm.trans h')
      exact ⟨rfl, List.append_cancel_left heq⟩
    | array hothers => exact absurd heq.symm (array_not_nil h' h)
    | simple | error | integer | bulk => simp [Reply.tag] at htag
  | array hitems ih =>
    intro other bytes bytes' rest rest' hother h h' heq
    have htag := tag_eq h h' heq
    cases hother with
    | nil => exact absurd heq (array_not_nil h h')
    | array hothers =>
      obtain ⟨rfl, hrest⟩ := array_free ih hothers h h' heq
      exact ⟨rfl, hrest⟩
    | simple | error | integer | bulk => simp [Reply.tag] at htag

/-- What is the beginning of other replies is of the first of them. -/
theorem replies_free {replies others : List Reply} {parts parts' : List Bytes}
    (hreplies : ∀ reply ∈ replies, reply.Framed) (hothers : ∀ other ∈ others, other.Framed)
    (h : wireAll replies = some parts) (h' : wireAll others = some parts')
    (hbegins : parts.flatten <+: parts'.flatten) : replies <+: others := by
  obtain ⟨rest, hrest⟩ := hbegins
  induction replies generalizing others parts parts' with
  | nil => exact List.nil_prefix
  | cons reply replies ih =>
    obtain ⟨hreply, hlater⟩ := List.forall_mem_cons.mp hreplies
    obtain ⟨bytes, more, hbytes, hmore, rfl⟩ := wireAll_cons h
    rw [List.flatten_cons, List.append_assoc] at hrest
    cases others with
    | nil =>
      obtain ⟨body, rfl⟩ := wire_head hbytes
      rw [← Option.some.inj h'] at hrest
      cases hrest
    | cons other others =>
      obtain ⟨hother, hafter⟩ := List.forall_mem_cons.mp hothers
      obtain ⟨bytes', more', hbytes', hmore', rfl⟩ := wireAll_cons h'
      rw [List.flatten_cons] at hrest
      obtain ⟨rfl, hsame⟩ := wire_free hreply hother hbytes hbytes' hrest
      exact List.prefix_cons_iff.mpr (.inr ⟨replies, rfl, ih hlater hafter hmore hmore' hsame⟩)

end Simloom.Services
