import Mathlib.Data.Int.Log
import Mathlib.Data.Rat.Floor
import Mathlib.Tactic

/-!
# Rounding to the nearest binary floating-point number

A number is rounded to `bits` binary digits behind the leading one, ties going
to the even neighbour.  The exponent is unbounded, so this is what a binary
format does as long as its exponents do not run out.  Rounding is monotone and
keeps every number with a short enough significand; a bound by such a number
therefore survives it.
-/

namespace StockFeed
namespace NearestRounding

/-! ## To an integer -/

/-- The nearest integer, the even one of two. -/
def nearestEven (q : ℚ) : ℤ :=
  if q - ⌊q⌋ < 1 / 2 then ⌊q⌋
  else if 1 / 2 < q - ⌊q⌋ then ⌊q⌋ + 1
  else if Even ⌊q⌋ then ⌊q⌋
  else ⌊q⌋ + 1

theorem nearestEven_intCast (n : ℤ) : nearestEven n = n := by
  unfold nearestEven
  rw [Int.floor_intCast, sub_self, if_pos (by norm_num)]

theorem floor_le_nearestEven (q : ℚ) : ⌊q⌋ ≤ nearestEven q := by
  unfold nearestEven
  split_ifs <;> omega

theorem nearestEven_le_floor_add_one (q : ℚ) : nearestEven q ≤ ⌊q⌋ + 1 := by
  unfold nearestEven
  split_ifs <;> omega

theorem nearestEven_mono {p q : ℚ} (hle : p ≤ q) :
    nearestEven p ≤ nearestEven q := by
  rcases (Int.floor_le_floor hle).eq_or_lt with heq | hlt
  · -- between the same two integers, the fraction decides
    unfold nearestEven
    rw [heq]
    have hfraction : p - ⌊q⌋ ≤ q - ⌊q⌋ := sub_le_sub_right hle _
    split_ifs <;> first | omega | (exfalso; linarith)
  · have hp := nearestEven_le_floor_add_one p
    have hq := floor_le_nearestEven q
    omega

/-! ## To a number of binary digits -/

/-- One unit in the last of `bits` binary digits behind the leading one. -/
def ulp (bits : ℕ) (q : ℚ) : ℚ :=
  2 ^ (Int.log 2 |q| - bits)

def roundTo (bits : ℕ) (q : ℚ) : ℚ :=
  nearestEven (q / ulp bits q) * ulp bits q

/-- A number with a significand of at most `bits` digits behind the leading
one. -/
def Representable (bits : ℕ) (q : ℚ) : Prop :=
  ∃ m e : ℤ, |m| < 2 ^ (bits + 1) ∧ q = m * 2 ^ e

theorem ulp_pos (bits : ℕ) (q : ℚ) : 0 < ulp bits q :=
  zpow_pos (by norm_num) _

@[simp] theorem roundTo_zero (bits : ℕ) : roundTo bits 0 = 0 := by
  have hzero : nearestEven 0 = 0 := nearestEven_intCast 0
  rw [roundTo, zero_div, hzero, Int.cast_zero, zero_mul]

theorem roundTo_of_representable
    {bits : ℕ} {q : ℚ} (hq : Representable bits q) : roundTo bits q = q := by
  obtain ⟨m, e, hm, rfl⟩ := hq
  rcases eq_or_ne m 0 with hzero | hne
  · rw [hzero, Int.cast_zero, zero_mul, roundTo_zero]
  · -- the last digit of the format is not behind the last digit of `m`
    have htwo : (2 : ℚ) ≠ 0 := by norm_num
    have hpow : (0 : ℚ) < 2 ^ e := zpow_pos (by norm_num) e
    have habs : |(m : ℚ) * 2 ^ e| = |(m : ℚ)| * 2 ^ e := by
      rw [abs_mul, abs_of_pos hpow]
    have hpos : 0 < |(m : ℚ) * 2 ^ e| := by
      apply abs_pos.mpr
      exact mul_ne_zero (Int.cast_ne_zero.mpr hne) hpow.ne'
    have hlog : Int.log 2 |(m : ℚ) * 2 ^ e| < bits + 1 + e := by
      rw [← Int.lt_zpow_iff_log_lt (by norm_num) hpos, habs, Nat.cast_ofNat,
        zpow_add₀ htwo]
      apply mul_lt_mul_of_pos_right _ hpow
      exact_mod_cast hm
    obtain ⟨k, hk⟩ := Int.eq_ofNat_of_zero_le
      (show 0 ≤ e - (Int.log 2 |(m : ℚ) * 2 ^ e| - bits) by omega)
    have hscaled : (m : ℚ) * 2 ^ e / ulp bits (m * 2 ^ e) =
        ((m * 2 ^ k : ℤ) : ℚ) := by
      rw [ulp, mul_div_assoc, ← zpow_sub₀ htwo, hk, Int.cast_mul,
        Int.cast_pow, Int.cast_ofNat]
      rfl
    rw [roundTo, hscaled, nearestEven_intCast, ← hscaled,
      div_mul_cancel₀ _ (ulp_pos bits _).ne']

theorem roundTo_nonneg {bits : ℕ} {q : ℚ} (hq : 0 ≤ q) :
    0 ≤ roundTo bits q := by
  have hscaled : 0 ≤ q / ulp bits q := div_nonneg hq (ulp_pos bits q).le
  have hfloor : 0 ≤ ⌊q / ulp bits q⌋ := Int.floor_nonneg.mpr hscaled
  apply mul_nonneg _ (ulp_pos bits q).le
  exact_mod_cast hfloor.trans (floor_le_nearestEven _)

/-! ## Monotonicity -/

theorem zpow_log_eq_ulp (bits : ℕ) (q : ℚ) :
    (2 : ℚ) ^ Int.log 2 |q| = ((2 ^ bits : ℤ) : ℚ) * ulp bits q := by
  rw [ulp, Int.cast_pow, Int.cast_ofNat, ← zpow_natCast,
    ← zpow_add₀ (by norm_num)]
  congr 1
  omega

/-- A positive number is rounded within its binade. -/
theorem roundTo_mem_binade (bits : ℕ) {q : ℚ} (hq : 0 < q) :
    2 ^ Int.log 2 |q| ≤ roundTo bits q ∧
      roundTo bits q ≤ 2 ^ (Int.log 2 |q| + 1) := by
  have hulp := ulp_pos bits q
  have hlow : (2 : ℚ) ^ Int.log 2 |q| ≤ |q| :=
    Int.zpow_log_le_self (by norm_num) (abs_pos.mpr hq.ne')
  have hhigh : |q| < (2 : ℚ) ^ (Int.log 2 |q| + 1) :=
    Int.lt_zpow_succ_log_self (by norm_num) _
  rw [zpow_add_one₀ (by norm_num)] at hhigh ⊢
  rw [zpow_log_eq_ulp bits] at hlow hhigh ⊢
  rw [abs_of_pos hq] at hlow hhigh
  constructor
  · rw [roundTo]
    apply mul_le_mul_of_nonneg_right _ hulp.le
    rw [Int.cast_le, ← nearestEven_intCast (2 ^ bits)]
    exact nearestEven_mono ((le_div_iff₀ hulp).mpr hlow)
  · have hdouble : ((2 ^ bits : ℤ) : ℚ) * ulp bits q * 2 =
        ((2 * 2 ^ bits : ℤ) : ℚ) * ulp bits q := by
      push_cast
      ring
    rw [hdouble] at hhigh ⊢
    rw [roundTo]
    apply mul_le_mul_of_nonneg_right _ hulp.le
    rw [Int.cast_le, ← nearestEven_intCast (2 * 2 ^ bits)]
    exact nearestEven_mono ((div_le_iff₀ hulp).mpr hhigh.le)

theorem roundTo_mono {bits : ℕ} {p q : ℚ} (hp : 0 ≤ p) (hle : p ≤ q) :
    roundTo bits p ≤ roundTo bits q := by
  rcases hp.eq_or_lt with hzero | hpos
  · rw [← hzero, roundTo_zero]
    exact roundTo_nonneg (hp.trans hle)
  · have hqpos := hpos.trans_le hle
    have hlog : Int.log 2 |p| ≤ Int.log 2 |q| := by
      rw [abs_of_pos hpos, abs_of_pos hqpos]
      exact Int.log_mono_right hpos hle
    rcases hlog.eq_or_lt with heq | hlt
    · have hulp : ulp bits p = ulp bits q := by rw [ulp, ulp, heq]
      rw [roundTo, roundTo, hulp]
      apply mul_le_mul_of_nonneg_right _ (ulp_pos bits q).le
      rw [Int.cast_le]
      apply nearestEven_mono
      exact div_le_div_of_nonneg_right hle (ulp_pos bits q).le
    · calc
        roundTo bits p ≤ 2 ^ (Int.log 2 |p| + 1) :=
          (roundTo_mem_binade bits hpos).2
        _ ≤ 2 ^ Int.log 2 |q| :=
          zpow_le_zpow_right₀ (by norm_num) (by omega)
        _ ≤ roundTo bits q := (roundTo_mem_binade bits hqpos).1

/-- An upper bound with a short significand survives rounding. -/
theorem roundTo_le
    {bits : ℕ} {q bound : ℚ} (hq : 0 ≤ q) (hle : q ≤ bound)
    (hbound : Representable bits bound) : roundTo bits q ≤ bound := by
  rw [← roundTo_of_representable hbound]
  exact roundTo_mono hq hle

theorem representable_intCast {bits : ℕ} {m : ℤ} (hm : |m| < 2 ^ (bits + 1)) :
    Representable bits m :=
  ⟨m, 0, hm, by rw [zpow_zero, mul_one]⟩

theorem Representable.div_two_pow
    {bits : ℕ} {q : ℚ} (hq : Representable bits q) (k : ℕ) :
    Representable bits (q / 2 ^ k) := by
  obtain ⟨m, e, hm, rfl⟩ := hq
  refine ⟨m, e - k, hm, ?_⟩
  rw [zpow_sub₀ (by norm_num), zpow_natCast, mul_div_assoc]

end NearestRounding
end StockFeed
