import Simloom.Net.Transport

/-! One direction of a connection, and what its receiver sees of its end.

A `Strand` keeps what was sent, what the receiver's pump took of it, and whether its
protocol saw data or the end of the stream. If nothing is sent behind an end of the stream
while the receiver is open (`Single`), the receiver sees data first and at most one end
(`Final`). -/
namespace Simloom
open Theory

/-- What a protocol sees of the stream in one call. -/
inductive Sign where
  | data
  | eof
deriving DecidableEq

def Call.sign : Call → Option Sign
  | .dataReceived _ | .getBuffer _ | .bufferUpdated _ => some .data
  | .eofReceived => some .eof
  | .connectionMade | .connectionLost _ => none

/-- Nothing comes after an end of the stream. -/
def EofLast (items : List Item) : Prop := ∀ before after, items = before ++ .eof :: after → after = []

namespace EofLast
variable {items a b : List Item}

theorem of_not_mem (h : Item.eof ∉ items) : EofLast items := by
  rintro before after rfl
  exact absurd (List.mem_append_right before List.mem_cons_self) h

theorem snoc (h : Item.eof ∉ items) (item : Item) : EofLast (items ++ [item]) := by
  intro before after heq
  rcases List.eq_nil_or_concat after with rfl | ⟨init, last, rfl⟩
  · rfl
  · have hinit : items = before ++ .eof :: init := by
      rw [List.concat_eq_append, ← List.cons_append, ← List.append_assoc] at heq
      exact List.append_inj_left' heq rfl
    exact absurd (hinit ▸ List.mem_append_right before List.mem_cons_self) h

/-- What is followed by something holds no end of the stream. -/
theorem not_mem (h : EofLast (a ++ b)) (hb : b ≠ []) : Item.eof ∉ a := by
  intro hmem
  obtain ⟨before, after, rfl⟩ := List.append_of_mem hmem
  have hnil := h before (after ++ b) (by simp)
  exact hb (List.append_eq_nil_iff.mp hnil).2

end EofLast

/-- `rest` is what is on its way or in the inbox; `handing` says that the pump is handing
over a chunk in pieces. -/
structure Strand where
  sent : List Item
  taken : List Item
  rest : List Item
  closed : Bool
  handing : Bool
  seen : List Sign

namespace Strand

def blank : Strand := ⟨[], [], [], false, false, []⟩

inductive Act where
  | send (item : Item)
  | take (buffered : Bool)
  | hand
  | stop
  | shut
deriving DecidableEq

def step (s : Strand) : Act → Option Strand
  | .send item => some {s with sent := s.sent ++ [item], rest := s.rest ++ [item]}
  | .take buffered =>
    match s.rest with
    | [] => none
    | item :: rest =>
      if s.closed = false ∧ s.handing = false then
        let s := {s with taken := s.taken ++ [item], rest := rest}
        match item, buffered with
        | .eof, _ => some {s with seen := s.seen ++ [.eof]}
        | .data _, true => some {s with handing := true}
        | .data _, false => some {s with seen := s.seen ++ [.data]}
      else none
  | .hand => if s.handing = true then some {s with seen := s.seen ++ [.data]} else none
  | .stop => some {s with handing := false}
  | .shut => some {s with closed := true}

/-- Nothing is sent behind an end of the stream to an open receiver. -/
def Single (s : Strand) (a : Act) : Prop :=
  ∀ item, a = .send item → s.closed = false → Item.eof ∉ s.sent

/-- Data first, and at most one end. -/
structure Final (s : Strand) : Prop where
  conserved : s.sent = s.taken ++ s.rest
  sent : s.closed = false → EofLast s.sent
  taken : EofLast s.taken
  handing : s.handing = true → Item.eof ∉ s.taken
  seen : ∃ k, s.seen = List.replicate k .data ++ if Item.eof ∈ s.taken then [.eof] else []

theorem final_blank : blank.Final where
  conserved := rfl
  sent := fun _ => .of_not_mem List.not_mem_nil
  taken := .of_not_mem List.not_mem_nil
  handing := nofun
  seen := ⟨0, rfl⟩

variable {s : Strand}

/-- Data may be seen as long as the end was not taken. -/
theorem seen_data {k : Nat}
    (hseen : s.seen = List.replicate k .data ++ if Item.eof ∈ s.taken then [.eof] else [])
    (htaken : Item.eof ∉ s.taken) : s.seen ++ [.data] = List.replicate (k + 1) .data := by
  rw [hseen, if_neg htaken, List.append_nil, List.replicate_succ']

theorem keeps_final : Transition.Keeps step Single Final := by
  intro s a s' hsingle h hs
  obtain ⟨k, hseen⟩ := h.seen
  cases a with
  | send item =>
    obtain rfl := Option.some.inj hs
    refine ⟨by rw [h.conserved, List.append_assoc], fun hopen => ?_, h.taken, h.handing, h.seen⟩
    exact .snoc (hsingle item rfl hopen) item
  | take buffered =>
    simp only [step] at hs
    split at hs
    · cases hs
    next item rest hrest =>
      obtain ⟨⟨hopen, hhanding⟩, hs⟩ := Option.ite_none_right_eq_some.mp hs
      have hconserved : s.sent = s.taken ++ [item] ++ rest := by rw [h.conserved, hrest]; simp
      have hbefore : Item.eof ∉ s.taken := by
        have hlast := h.sent hopen
        rw [h.conserved, hrest] at hlast
        exact hlast.not_mem (List.cons_ne_nil _ _)
      have htaken : EofLast (s.taken ++ [item]) := .snoc hbefore item
      rw [if_neg hbefore, List.append_nil] at hseen
      cases item with
      | eof =>
        obtain rfl := Option.some.inj hs
        refine ⟨hconserved, h.sent, htaken, fun hh => (nomatch hhanding.symm.trans hh), k, ?_⟩
        rw [if_pos (List.mem_append_right _ List.mem_cons_self), ← hseen]
      | data d =>
        have hafter : Item.eof ∉ s.taken ++ [.data d] := by simp [hbefore]
        cases buffered with
        | true =>
          obtain rfl := Option.some.inj hs
          refine ⟨hconserved, h.sent, htaken, fun _ => hafter, k, ?_⟩
          rw [if_neg hafter, List.append_nil, ← hseen]
        | false =>
          obtain rfl := Option.some.inj hs
          refine ⟨hconserved, h.sent, htaken, fun _ => hafter, k + 1, ?_⟩
          rw [if_neg hafter, List.append_nil, List.replicate_succ', ← hseen]
  | hand =>
    obtain ⟨hhanding, hs⟩ := Option.ite_none_right_eq_some.mp hs
    have htaken := h.handing hhanding
    refine Option.some.inj hs ▸ ⟨h.conserved, h.sent, h.taken, h.handing, k + 1, ?_⟩
    rw [seen_data hseen htaken]
    simp [htaken]
  | stop => exact Option.some.inj hs ▸ ⟨h.conserved, h.sent, h.taken, nofun, h.seen⟩
  | shut => exact Option.some.inj hs ▸ ⟨h.conserved, nofun, h.taken, h.handing, h.seen⟩

end Strand

end Simloom
