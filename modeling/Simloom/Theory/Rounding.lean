import Mathlib.Data.Int.Log
import Mathlib.Data.Rat.Floor
import Mathlib.Algebra.Order.Floor.Ring
import Mathlib.Algebra.Field.Rat
import Mathlib.Tactic.Linarith
import Mathlib.Tactic.Positivity

/-! Rounded arithmetic.

A `Rounding` takes each number to one that it leaves alone, in order. Sums and products are
rounded once, so what is added to a number may leave it where it was, but never takes it back.
`binary64` is the rounding of IEEE doubles, to nearest and ties to even, without the overflow
to infinity. -/
namespace Simloom.Theory

structure Rounding where
  round : ℚ → ℚ
  mono : Monotone round
  idem : ∀ x, round (round x) = round x
  zero : round 0 = 0

namespace Rounding
variable (r : Rounding)

def add (x y : ℚ) : ℚ := r.round (x + y)

def sub (x y : ℚ) : ℚ := r.round (x - y)

def mul (x y : ℚ) : ℚ := r.round (x * y)

def div (x y : ℚ) : ℚ := r.round (x / y)

/-- A number that needs no rounding. -/
def Exact (x : ℚ) : Prop := r.round x = x

instance (x : ℚ) : Decidable (r.Exact x) := inferInstanceAs (Decidable (r.round x = x))

variable {r} {x y : ℚ}

theorem exact_zero : r.Exact 0 := r.zero

theorem exact_add (x y : ℚ) : r.Exact (r.add x y) := r.idem _

theorem exact_max (hx : r.Exact x) (hy : r.Exact y) : r.Exact (max x y) := by
  rcases max_choice x y with h | h <;> rw [h] <;> assumption

/-- Nothing is rounded past a number that needs no rounding. -/
theorem le_round (hx : r.Exact x) (h : x ≤ y) : x ≤ r.round y := hx ▸ r.mono h

theorem round_nonneg (h : 0 ≤ y) : 0 ≤ r.round y := le_round exact_zero h

theorem le_add (hx : r.Exact x) (hy : 0 ≤ y) : x ≤ r.add x y :=
  le_round hx (le_add_of_nonneg_right hy)

theorem add_nonneg (hx : 0 ≤ x) (hy : 0 ≤ y) : 0 ≤ r.add x y :=
  round_nonneg (Left.add_nonneg hx hy)

theorem sub_nonneg (h : y ≤ x) : 0 ≤ r.sub x y := round_nonneg (by linarith)

theorem mul_nonneg (hx : 0 ≤ x) (hy : 0 ≤ y) : 0 ≤ r.mul x y := round_nonneg (by positivity)

theorem div_nonneg (hx : 0 ≤ x) (hy : 0 ≤ y) : 0 ≤ r.div x y := round_nonneg (by positivity)

end Rounding

/-! ### To the nearest integer -/

/-- The nearest integer, and of two the even one. -/
def nearest (q : ℚ) : ℤ :=
  if q - ⌊q⌋ < 1 / 2 ∨ q - ⌊q⌋ = 1 / 2 ∧ Even ⌊q⌋ then ⌊q⌋ else ⌊q⌋ + 1

theorem floor_le_nearest (q : ℚ) : ⌊q⌋ ≤ nearest q := by
  unfold nearest
  split <;> omega

theorem nearest_le_floor (q : ℚ) : nearest q ≤ ⌊q⌋ + 1 := by
  unfold nearest
  split <;> omega

@[simp] theorem nearest_intCast (n : ℤ) : nearest n = n := by
  simp [nearest]

theorem nearest_mono {q q' : ℚ} (h : q ≤ q') : nearest q ≤ nearest q' := by
  rcases (Int.floor_mono h).lt_or_eq with hlt | heq
  · calc nearest q ≤ ⌊q⌋ + 1 := nearest_le_floor q
      _ ≤ ⌊q'⌋ := hlt
      _ ≤ nearest q' := floor_le_nearest q'
  · -- the same two integers to choose from
    unfold nearest
    rw [heq]
    by_cases hq' : q' - ⌊q'⌋ < 1 / 2 ∨ q' - ⌊q'⌋ = 1 / 2 ∧ Even ⌊q'⌋
    · have hq : q - ⌊q'⌋ < 1 / 2 ∨ q - ⌊q'⌋ = 1 / 2 ∧ Even ⌊q'⌋ := by
        rcases hq' with hlt | ⟨hhalf, heven⟩
        · exact .inl (by linarith)
        · rcases h.lt_or_eq with hlt | rfl
          · exact .inl (by linarith)
          · exact .inr ⟨hhalf, heven⟩
      rw [if_pos hq, if_pos hq']
    · rw [if_neg hq']
      split <;> omega

/-! ### Binary floating point -/

/-- The exponent of the last place of a positive number with so many binary digits. -/
def lastPlace (digits least : ℤ) (x : ℚ) : ℤ := max (Int.log 2 x - (digits - 1)) least

/-- Round a magnitude to a multiple of its last place. -/
def roundMagnitude (digits least : ℤ) (x : ℚ) : ℚ :=
  nearest (x / 2 ^ lastPlace digits least x) * 2 ^ lastPlace digits least x

section Magnitude
variable {digits least : ℤ} {x y : ℚ}

theorem lastPlace_mono (hx : 0 < x) (h : x ≤ y) :
    lastPlace digits least x ≤ lastPlace digits least y :=
  max_le_max_right _ (Int.sub_le_sub_right (Int.log_mono_right hx h) _)

/-- A multiple of a power of two is one of each smaller power. -/
theorem multiple_zpow (k : ℤ) {p e : ℤ} (h : p ≤ e) : ∃ m : ℤ, (k * 2 ^ e : ℚ) = m * 2 ^ p := by
  obtain ⟨n, rfl⟩ := Int.le.dest h
  refine ⟨k * 2 ^ n, ?_⟩
  rw [zpow_add₀ two_ne_zero, zpow_natCast]
  push_cast
  ring

/-- What is a multiple of the last place stays. -/
theorem roundMagnitude_multiple (k : ℤ) {e : ℤ} (hx : x = k * 2 ^ e)
    (he : lastPlace digits least x ≤ e) : roundMagnitude digits least x = x := by
  obtain ⟨m, hm⟩ := multiple_zpow k he
  have hpos : (0 : ℚ) < 2 ^ lastPlace digits least x := zpow_pos two_pos _
  have hdiv : x / 2 ^ lastPlace digits least x = m := by
    rw [div_eq_iff hpos.ne', ← hm, hx]
  rw [roundMagnitude, hdiv, nearest_intCast, ← hdiv, div_mul_cancel₀ _ hpos.ne']

theorem roundMagnitude_zero : roundMagnitude digits least 0 = 0 := by
  simp [roundMagnitude, nearest]

/-- Above a multiple of its last place a number is rounded to no less. -/
theorem le_roundMagnitude (k : ℤ) {e : ℤ} (he : lastPlace digits least x ≤ e)
    (h : k * 2 ^ e ≤ x) : k * 2 ^ e ≤ roundMagnitude digits least x := by
  obtain ⟨m, hm⟩ := multiple_zpow k he
  have hpos : (0 : ℚ) < 2 ^ lastPlace digits least x := zpow_pos two_pos _
  rw [hm] at h ⊢
  have hle : m ≤ nearest (x / 2 ^ lastPlace digits least x) := by
    rw [← nearest_intCast m]
    exact nearest_mono ((le_div_iff₀ hpos).mpr h)
  exact mul_le_mul_of_nonneg_right (Int.cast_le.mpr hle) hpos.le

/-- And below one to no more. -/
theorem roundMagnitude_le (k : ℤ) {e : ℤ} (he : lastPlace digits least x ≤ e)
    (h : x ≤ k * 2 ^ e) : roundMagnitude digits least x ≤ k * 2 ^ e := by
  obtain ⟨m, hm⟩ := multiple_zpow k he
  have hpos : (0 : ℚ) < 2 ^ lastPlace digits least x := zpow_pos two_pos _
  rw [hm] at h ⊢
  have hle : nearest (x / 2 ^ lastPlace digits least x) ≤ m := by
    rw [← nearest_intCast m]
    exact nearest_mono ((div_le_iff₀ hpos).mpr h)
  exact mul_le_mul_of_nonneg_right (Int.cast_le.mpr hle) hpos.le

theorem roundMagnitude_nonneg (hx : 0 ≤ x) : 0 ≤ roundMagnitude digits least x := by
  have hmultiple : ((0 : ℤ) : ℚ) * 2 ^ lastPlace digits least x ≤ x := by
    rwa [Int.cast_zero, zero_mul]
  have h := le_roundMagnitude 0 le_rfl hmultiple
  rwa [Int.cast_zero, zero_mul] at h

theorem roundMagnitude_mono (hdigits : 1 ≤ digits) (hx : 0 ≤ x) (h : x ≤ y) :
    roundMagnitude digits least x ≤ roundMagnitude digits least y := by
  rcases hx.eq_or_lt with rfl | hpos
  · rw [roundMagnitude_zero]
    exact roundMagnitude_nonneg h
  rcases (lastPlace_mono hpos h).eq_or_lt with heq | hlt
  · unfold roundMagnitude
    rw [heq]
    have hplace : (0 : ℚ) < 2 ^ lastPlace digits least y := zpow_pos two_pos _
    have hnearest := nearest_mono (div_le_div_of_nonneg_right h hplace.le)
    exact mul_le_mul_of_nonneg_right (Int.cast_le.mpr hnearest) hplace.le
  · -- the leading power of two of the larger lies between them
    have hplaces : Int.log 2 x + 1 ≤ Int.log 2 y ∧ lastPlace digits least y ≤ Int.log 2 y := by
      simp only [lastPlace] at hlt ⊢
      omega
    have hxpow : x ≤ (1 : ℤ) * 2 ^ Int.log 2 y := by
      rw [Int.cast_one, one_mul]
      exact (Int.lt_zpow_succ_log_self one_lt_two x).le.trans
        (zpow_le_zpow_right₀ one_le_two hplaces.1)
    have hypow : ((1 : ℤ) : ℚ) * 2 ^ Int.log 2 y ≤ y := by
      rw [Int.cast_one, one_mul]
      exact Int.zpow_log_le_self one_lt_two (hpos.trans_le h)
    exact (roundMagnitude_le 1 (hlt.le.trans hplaces.2) hxpow).trans
      (le_roundMagnitude 1 hplaces.2 hypow)

theorem roundMagnitude_idem (hdigits : 1 ≤ digits) (hx : 0 ≤ x) :
    roundMagnitude digits least (roundMagnitude digits least x) = roundMagnitude digits least x := by
  rcases hx.eq_or_lt with rfl | hpos
  · rw [roundMagnitude_zero, roundMagnitude_zero]
  have hz : 0 ≤ roundMagnitude digits least x := roundMagnitude_nonneg hx
  have hmultiple : roundMagnitude digits least x =
      nearest (x / 2 ^ lastPlace digits least x) * 2 ^ lastPlace digits least x := rfl
  have hbelow : roundMagnitude digits least x ≤
      (1 : ℤ) * 2 ^ max (Int.log 2 x + 1) (lastPlace digits least x) := by
    refine roundMagnitude_le 1 (le_max_right _ _) ?_
    rw [Int.cast_one, one_mul]
    exact (Int.lt_zpow_succ_log_self one_lt_two x).le.trans
      (zpow_le_zpow_right₀ one_le_two (le_max_left _ _))
  generalize roundMagnitude digits least x = z at hz hmultiple hbelow
  rcases hz.eq_or_lt with rfl | hzpos
  · exact roundMagnitude_zero
  rcases hbelow.eq_or_lt with heq | hlt
  · -- rounded up to a power of two
    refine roundMagnitude_multiple 1 heq ?_
    have hlog : Int.log 2 z = max (Int.log 2 x + 1) (lastPlace digits least x) := by
      rw [heq, Int.cast_one, one_mul]
      exact_mod_cast Int.log_zpow (R := ℚ) one_lt_two _
    simp only [lastPlace] at hlog ⊢
    omega
  · refine roundMagnitude_multiple _ hmultiple ?_
    rw [Int.cast_one, one_mul] at hlt
    have hlog : Int.log 2 z < max (Int.log 2 x + 1) (lastPlace digits least x) :=
      (zpow_lt_zpow_iff_right₀ one_lt_two).mp
        ((Int.zpow_log_le_self one_lt_two hzpos).trans_lt hlt)
    simp only [lastPlace] at hlog ⊢
    omega

end Magnitude

/-- Binary numbers with so many digits, to the left of a least place. -/
def Rounding.binary (digits least : ℤ) (hdigits : 1 ≤ digits) : Rounding where
  round x := if x < 0 then -roundMagnitude digits least (-x) else roundMagnitude digits least x
  mono := by
    intro x y h
    dsimp only
    split
    next hx =>
      have hneg : 0 ≤ roundMagnitude digits least (-x) := roundMagnitude_nonneg (by linarith)
      split
      next hy => exact neg_le_neg (roundMagnitude_mono hdigits (by linarith) (by linarith))
      next hy => exact (neg_nonpos.mpr hneg).trans (roundMagnitude_nonneg (not_lt.mp hy))
    next hx =>
      rw [if_neg (by linarith)]
      exact roundMagnitude_mono hdigits (not_lt.mp hx) h
  idem := by
    intro x
    split
    next hx =>
      have hneg : 0 ≤ -x := by linarith
      have hz : 0 ≤ roundMagnitude digits least (-x) := roundMagnitude_nonneg hneg
      rcases hz.eq_or_lt with hz | hz
      · rw [← hz, neg_zero, if_neg (lt_irrefl _), roundMagnitude_zero]
      · rw [if_pos (neg_lt_zero.mpr hz), neg_neg, roundMagnitude_idem hdigits hneg]
    next hx =>
      rw [if_neg (not_lt.mpr (roundMagnitude_nonneg (not_lt.mp hx)))]
      exact roundMagnitude_idem hdigits (not_lt.mp hx)
  zero := by
    rw [if_neg (lt_irrefl _), roundMagnitude_zero]

/-- Python's floats, as long as they are finite. -/
def Rounding.binary64 : Rounding := .binary 53 (-1074) (by decide)

/-- A millionth of a millionth of a millionth added to one is lost. -/
example : Rounding.binary64.add 1 (Rounding.binary64.div 1 (10 ^ 18)) = 1 := by decide +kernel

end Simloom.Theory
