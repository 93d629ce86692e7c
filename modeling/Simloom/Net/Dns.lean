import Simloom.Theory.Dict
import Mathlib.Data.List.Induction

/-! `SimDNS`: names and their addresses.

A name is bound once, to an address that the caller gives or to the next of `10.0.0.1`,
`10.0.0.2` and so on. The counter knows nothing of the addresses that callers give, and `resolve`
looks at the shape of a name before it looks for its record (`fresh_and_steady_iff`). -/
namespace Simloom
open Theory

/-! ### Addresses -/

/-- The zeros of the decimal digits, ten in a row each (Unicode 15.0). -/
def decimalZeros : List Nat :=
  [0x30, 0x660, 0x6f0, 0x7c0, 0x966, 0x9e6, 0xa66, 0xae6, 0xb66, 0xbe6, 0xc66, 0xce6, 0xd66,
   0xde6, 0xe50, 0xed0, 0xf20, 0x1040, 0x1090, 0x17e0, 0x1810, 0x1946, 0x19d0, 0x1a80, 0x1a90,
   0x1b50, 0x1bb0, 0x1c40, 0x1c50, 0xa620, 0xa8d0, 0xa900, 0xa9d0, 0xa9f0, 0xaa50, 0xabf0,
   0xff10, 0x104a0, 0x10d30, 0x11066, 0x110f0, 0x11136, 0x111d0, 0x112f0, 0x11450, 0x114d0,
   0x11650, 0x116c0, 0x11730, 0x118e0, 0x11950, 0x11c50, 0x11d50, 0x11da0, 0x11f50, 0x16a60,
   0x16ac0, 0x16b50, 0x1d7ce, 0x1d7d8, 0x1d7e2, 0x1d7ec, 0x1d7f6, 0x1e140, 0x1e2f0, 0x1e4f0,
   0x1e950, 0x1fbf0]

/-- Other characters that are digits: superscripts, circled ones and so on. -/
def otherDigits : List (Nat × Nat) :=
  [(0xb2, 0xb3), (0xb9, 0xb9), (0x1369, 0x1371), (0x19da, 0x19da), (0x2070, 0x2070),
   (0x2074, 0x2079), (0x2080, 0x2089), (0x2460, 0x2468), (0x2474, 0x247c), (0x2488, 0x2490),
   (0x24ea, 0x24ea), (0x24f5, 0x24fd), (0x24ff, 0x24ff), (0x2776, 0x277e), (0x2780, 0x2788),
   (0x278a, 0x2792), (0x10a40, 0x10a43), (0x10e60, 0x10e68), (0x11052, 0x1105a),
   (0x1f100, 0x1f10a)]

/-- `str.isdigit` of one character. -/
def isDigit (c : Char) : Bool :=
  decimalZeros.any (fun z => z ≤ c.toNat && c.toNat < z + 10) ||
    otherDigits.any fun range => range.1 ≤ c.toNat && c.toNat ≤ range.2

/-- `_looks_like_ip`. -/
def looksLikeIp (name : String) : Bool :=
  let parts := name.toList.splitOn '.'
  parts.length == 4 && parts.all fun p => !p.isEmpty && p.all isDigit

/-- `f"10.0.0.{n}"`. -/
def autoIp (n : Nat) : String := "10.0.0." ++ toString n

theorem autoIp_inj {m n : Nat} (h : autoIp m = autoIp n) : m = n := by
  have hlist := congrArg String.toList h
  simp only [autoIp, String.toList_append] at hlist
  have hdigits := congrArg (fun ds => Nat.ofDigitChars 10 ds 0) (List.append_cancel_left hlist)
  simpa [Nat.toString_eq_ofList_toDigits] using hdigits

/-! ### The table -/

/-- `_records` and `_next_ip`. -/
structure SimDNS where
  records : Dict String String
  nextIp : Nat

/-- `socket.gaierror(EAI_NONAME)`: no record for the name. -/
structure NoRecord where
  name : String
deriving DecidableEq

namespace SimDNS

def new : SimDNS := ⟨.empty, 1⟩

def register (d : SimDNS) (name : String) (ip : Option String) : SimDNS × String :=
  match d.records.get? name with
  | some bound => (d, bound)
  | none =>
    match ip with
    | some ip => (⟨d.records.set name ip, d.nextIp⟩, ip)
    | none => (⟨d.records.set name (autoIp d.nextIp), d.nextIp + 1⟩, autoIp d.nextIp)

def resolve (d : SimDNS) (name : String) : Except NoRecord String :=
  if looksLikeIp name then .ok name
  else if name = "localhost" then .ok "127.0.0.1"
  else
    match d.records.get? name with
    | none => .error ⟨name⟩
    | some ip => .ok ip

/-- Calls from outside; that of `create_server` gives no address. -/
inductive Call where
  | register (name : String) (ip : Option String)
  | resolve (name : String)

def step (d : SimDNS) : Call → SimDNS
  | .register name ip => (d.register name ip).1
  | .resolve _ => d

def after (calls : List Call) : SimDNS := calls.foldl step new

/-! ### What is promised -/

/-- An address that is assigned automatically is no other name's at that moment, and is not
assigned to another name later. -/
def Fresh (calls : List Call) : Prop :=
  ∀ before name rest, calls = before ++ .register name none :: rest →
    (after before).records.get? name = none →
    (∀ other, (after before).records.get? other ≠ some ((after before).register name none).2) ∧
    ∀ middle other last, rest = middle ++ .register other none :: last →
      (after (before ++ .register name none :: middle)).records.get? other = none →
      ((after (before ++ .register name none :: middle)).register other none).2 ≠
        ((after before).register name none).2

/-- From its registration on, a name resolves to the address that was answered there. -/
def Steady (calls : List Call) : Prop :=
  ∀ before name ip middle last, calls = before ++ .register name ip :: (middle ++ last) →
    (after (before ++ .register name ip :: middle)).resolve name =
      .ok ((after before).register name ip).2

/-! ### When it holds -/

/-- A call has bound a new name to the address, which it gave. -/
def Given (calls : List Call) (address : String) : Prop :=
  ∃ before name later, calls = before ++ .register name (some address) :: later ∧
    (after before).records.get? name = none

/-- `resolve` does not answer something else before it looks for the record. -/
def Answered (name address : String) : Prop :=
  (looksLikeIp name = true → address = name) ∧ (name = "localhost" → address = "127.0.0.1")

/-- The next automatic address was not given to a name before, and new names get addresses that
`resolve` answers. -/
def Clear (calls : List Call) : Prop :=
  (∀ before name rest, calls = before ++ .register name none :: rest →
    (after before).records.get? name = none → ¬ Given before (autoIp (after before).nextIp)) ∧
  ∀ before name ip rest, calls = before ++ .register name ip :: rest →
    (after before).records.get? name = none →
    Answered name (ip.getD (autoIp (after before).nextIp))

/-! ### One call -/

/-- What a new name is bound to. -/
theorem register_new {d : SimDNS} {name : String} (h : d.records.get? name = none)
    (ip : Option String) :
    (d.register name ip).1.records = d.records.set name (ip.getD (autoIp d.nextIp)) ∧
      (d.register name ip).2 = ip.getD (autoIp d.nextIp) := by
  unfold register
  rw [h]
  cases ip <;> exact ⟨rfl, rfl⟩

theorem register_old {d : SimDNS} {name bound : String} (h : d.records.get? name = some bound)
    (ip : Option String) : d.register name ip = (d, bound) := by
  unfold register
  rw [h]

/-- The caller is answered what the table says. -/
theorem get?_register (d : SimDNS) (name : String) (ip : Option String) :
    (d.register name ip).1.records.get? name = some (d.register name ip).2 := by
  cases h : d.records.get? name with
  | some bound => rw [register_old h, h]
  | none => rw [(register_new h ip).1, (register_new h ip).2, Dict.get?_set_self]

/-- A record stays. -/
theorem get?_step {d : SimDNS} {name a : String} (h : d.records.get? name = some a) (call : Call) :
    (d.step call).records.get? name = some a := by
  cases call with
  | resolve other => exact h
  | register other ip =>
    show (d.register other ip).1.records.get? name = some a
    cases ho : d.records.get? other with
    | some bound => rw [register_old ho, h]
    | none =>
      have hne : name ≠ other := fun he => by simp [he, ho] at h
      rw [(register_new ho ip).1, Dict.get?_set_ne _ _ hne, h]

theorem nextIp_step (d : SimDNS) (call : Call) : d.nextIp ≤ (d.step call).nextIp := by
  cases call with
  | resolve other => exact Nat.le_refl _
  | register other ip =>
    show d.nextIp ≤ (d.register other ip).1.nextIp
    unfold register
    split
    · exact Nat.le_refl _
    · cases ip with
      | some a => exact Nat.le_refl _
      | none => exact Nat.le_succ _

/-- An automatic address moves the counter. -/
theorem nextIp_register {d : SimDNS} {name : String} (h : d.records.get? name = none) :
    (d.register name none).1.nextIp = d.nextIp + 1 := by
  unfold register
  rw [h]

theorem resolve_eq_ok {d : SimDNS} {name a : String} (h : d.records.get? name = some a) :
    d.resolve name = .ok a ↔ Answered name a := by
  unfold resolve Answered
  split
  next hip =>
    have hlocal : name ≠ "localhost" := by
      rintro rfl
      exact absurd hip (by decide)
    rw [Except.ok.injEq]
    exact ⟨fun h => ⟨fun _ => h.symm, fun hl => absurd hl hlocal⟩, fun h => (h.1 hip).symm⟩
  next hip =>
    split
    next hlocal =>
      rw [Except.ok.injEq]
      exact ⟨fun h => ⟨fun hl => absurd hl hip, fun _ => h.symm⟩, fun h => (h.2 hlocal).symm⟩
    next hlocal => simp [h, hip, hlocal]

/-! ### Many calls -/

theorem after_snoc (calls : List Call) (call : Call) :
    after (calls ++ [call]) = (after calls).step call := by
  simp [after]

theorem after_cons (before : List Call) (call : Call) (middle : List Call) :
    after (before ++ call :: middle) = middle.foldl step ((after before).step call) := by
  simp [after]

theorem get?_foldl {d : SimDNS} {name a : String} (h : d.records.get? name = some a)
    (calls : List Call) : (calls.foldl step d).records.get? name = some a := by
  induction calls generalizing d with
  | nil => exact h
  | cons call rest ih => exact ih (get?_step h call)

theorem nextIp_foldl (d : SimDNS) (calls : List Call) : d.nextIp ≤ (calls.foldl step d).nextIp := by
  induction calls generalizing d with
  | nil => exact Nat.le_refl _
  | cons call rest ih => exact Nat.le_trans (nextIp_step d call) (ih _)

/-- Behind every record is the call that bound the name. -/
theorem bound_by {calls : List Call} {name a : String}
    (h : (after calls).records.get? name = some a) :
    ∃ before ip later, calls = before ++ .register name ip :: later ∧
      (after before).records.get? name = none ∧ a = ip.getD (autoIp (after before).nextIp) := by
  induction calls using List.reverseRecOn with
  | nil => simp [after, new] at h
  | append_singleton calls call ih =>
    cases hold : (after calls).records.get? name with
    | some b =>
      rw [after_snoc, get?_step hold] at h
      obtain ⟨before, ip, later, rfl, hnew, ha⟩ := ih (hold.trans h)
      exact ⟨before, ip, later ++ [call], by simp, hnew, ha⟩
    | none =>
      rw [after_snoc] at h
      cases call with
      | resolve other => simp [step, hold] at h
      | register other ip =>
        replace h : ((after calls).register other ip).1.records.get? name = some a := h
        cases ho : (after calls).records.get? other with
        | some bound => simp [register_old ho, hold] at h
        | none =>
          rw [(register_new ho ip).1, Dict.get?_set, hold] at h
          split at h
          next he =>
            subst he
            exact ⟨calls, ip, [], rfl, ho, (Option.some.inj h).symm⟩
          next => cases h

/-- An address of the table was given, or comes from the counter. -/
theorem given_or_auto {calls : List Call} {name a : String}
    (h : (after calls).records.get? name = some a) :
    Given calls a ∨ ∃ k < (after calls).nextIp, a = autoIp k := by
  obtain ⟨before, ip, later, rfl, hnew, rfl⟩ := bound_by h
  cases ip with
  | some ip => exact .inl ⟨before, name, later, rfl, hnew⟩
  | none =>
    refine .inr ⟨_, ?_, rfl⟩
    have hnext := nextIp_register hnew
    have hle := nextIp_foldl ((after before).step (.register name none)) later
    rw [after_cons]
    show (after before).nextIp < _
    simp only [step] at hle ⊢
    omega

theorem Given.record {calls : List Call} {a : String} (h : Given calls a) :
    ∃ name, (after calls).records.get? name = some a := by
  obtain ⟨before, name, later, rfl, hnew⟩ := h
  refine ⟨name, ?_⟩
  rw [after_cons]
  apply get?_foldl
  show ((after before).register name (some a)).1.records.get? name = some a
  rw [get?_register, (register_new hnew _).2]
  rfl

/-! ### When addresses are fresh and names steady -/

theorem fresh_iff (calls : List Call) : Fresh calls ↔
    ∀ before name rest, calls = before ++ .register name none :: rest →
      (after before).records.get? name = none →
      ¬ Given before (autoIp (after before).nextIp) := by
  constructor
  · intro h before name rest hcalls hnew hgiven
    obtain ⟨other, hother⟩ := hgiven.record
    apply (h before name rest hcalls hnew).1 other
    rw [hother, (register_new hnew none).2]
    rfl
  · intro h before name rest hcalls hnew
    have hanswer : ((after before).register name none).2 = autoIp (after before).nextIp :=
      (register_new hnew none).2
    rw [hanswer]
    constructor
    · intro other hother
      rcases given_or_auto hother with hgiven | ⟨k, hk, heq⟩
      · exact h before name rest hcalls hnew hgiven
      · have := autoIp_inj heq
        omega
    · intro middle other last hrest hother heq
      rw [(register_new hother none).2] at heq
      have hlater := autoIp_inj heq
      have hnext := nextIp_register hnew
      have hle := nextIp_foldl ((after before).step (.register name none)) middle
      rw [after_cons] at hlater
      simp only [step] at hle hlater
      omega

theorem steady_iff (calls : List Call) : Steady calls ↔
    ∀ before name ip rest, calls = before ++ .register name ip :: rest →
      (after before).records.get? name = none →
      Answered name (ip.getD (autoIp (after before).nextIp)) := by
  have hrecord : ∀ before name ip middle,
      (after (before ++ .register name ip :: middle)).records.get? name =
        some ((after before).register name ip).2 := fun before name ip middle => by
    rw [after_cons]
    exact get?_foldl (get?_register _ name ip) middle
  constructor
  · intro h before name ip rest hcalls hnew
    rw [← (register_new hnew ip).2, ← resolve_eq_ok (hrecord before name ip [])]
    exact h before name ip [] rest hcalls
  · intro h before name ip middle last hcalls
    rw [resolve_eq_ok (hrecord before name ip middle)]
    cases hold : (after before).records.get? name with
    | none =>
      rw [(register_new hold ip).2]
      exact h before name ip _ hcalls hold
    | some bound =>
      -- the name was bound by an earlier call
      obtain ⟨first, ip', later, rfl, hnew, rfl⟩ := bound_by hold
      rw [register_old hold]
      exact h first name ip' _ (by rw [hcalls, List.append_assoc, List.cons_append]) hnew

/-- Automatic addresses are fresh and names keep their addresses exactly where no call gives an
address that the counter comes to afterwards, nor binds a name that `resolve` answers otherwise. -/
theorem fresh_and_steady_iff (calls : List Call) : Fresh calls ∧ Steady calls ↔ Clear calls :=
  and_congr (fresh_iff calls) (steady_iff calls)

/-- The first automatic address was given to another name. -/
theorem not_fresh_given :
    ¬ (Fresh [.register "db" (some "10.0.0.1"), .register "web" none] ∧
      Steady [.register "db" (some "10.0.0.1"), .register "web" none]) := by
  rintro ⟨hfresh, -⟩
  exact (hfresh [.register "db" (some "10.0.0.1")] "web" [] rfl (by decide)).1 "db" (by decide)

end SimDNS

end Simloom
