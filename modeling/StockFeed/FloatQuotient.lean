import Mathlib

/-!
# A binary32 quotient below one

A `Float32` is a word of bits.  Its operations unpack their arguments into a
sign, a significand and an exponent, round the exact result to a significand of
at most 24 digits, and pack it again.  The significand is as long as the
exponent allows, so that canonical floats of one sign are in the order of their
exponents first and of their significands second.

The main result is that rounding does not carry a quotient across one:
`(a / b).abs < 1` exactly if `a.abs < b.abs`, for infinities, NaN, zeros and
subnormal numbers as well.  The largest quotient below one is `1 - 2⁻²⁴`, which
is a float itself.
-/

namespace StockFeed
namespace FloatQuotient

open Float.Model (Format UnpackedFloat totalExponent)
open Float.Model.UnpackedFloat

/-! ## Shifting and rounding a significand -/

theorem shiftRight_mantissa (em : ExtendedMantissa) (k : ℕ) :
    (em >>> k).mantissa = em.mantissa / 2 ^ k := by
  induction k generalizing em with
  | zero => simp [HShiftRight.hShiftRight, Nat.repeat]
  | succ k ih =>
      change ((em >>> k).mantissa) / 2 = _
      rw [ih, Nat.div_div_eq_div_mul, pow_succ]

theorem roundedMantissa_bounds (em : ExtendedMantissa) :
    em.mantissa ≤ em.roundedMantissa ∧
      em.roundedMantissa ≤ em.mantissa + 1 := by
  obtain ⟨mantissa, roundBit, stickyBit⟩ := em
  cases roundBit <;> cases stickyBit <;>
    simp [ExtendedMantissa.roundedMantissa, ExtendedMantissa.accuracy,
      Accuracy.roundToNearestEven]
  omega

theorem shiftRight_exact (n k : ℕ) :
    (⟨n * 2 ^ k, false, false⟩ : ExtendedMantissa) >>> k = ⟨n, false, false⟩ := by
  induction k generalizing n with
  | zero => simp [HShiftRight.hShiftRight, Nat.repeat]
  | succ k ih =>
      change ExtendedMantissa.shiftRightOne
        ((⟨n * 2 ^ (k + 1), false, false⟩ : ExtendedMantissa) >>> k) = _
      rw [pow_succ, mul_comm (2 ^ k) 2, ← mul_assoc, ih]
      simp [ExtendedMantissa.shiftRightOne]

theorem targetExponent_eq (m : ℕ) (e : ℤ) :
    Format.binary32.targetExponent (totalExponent m e) =
      max (m.log2 + e - 23) (-149) := by
  change max ((m.log2 : ℤ) + 1 + e - 24) (-149) = _
  omega

/-- How far a significand is shifted before it is rounded. -/
def shiftAmount (m : ℕ) (e : ℤ) : ℕ :=
  (max (m.log2 + e - 23) (-149) - e).toNat

/-- The significand after the shift, rounded. -/
def rounded (m : ℕ) (e : ℤ) (acc : Accuracy) : ℕ :=
  (ExtendedMantissa.ofMantissaAndAccuracy m acc >>>
    shiftAmount m e).roundedMantissa

theorem ofMantissaAndAccuracy_mantissa (m : ℕ) (acc : Accuracy) :
    (ExtendedMantissa.ofMantissaAndAccuracy m acc).mantissa = m := by
  unfold ExtendedMantissa.ofMantissaAndAccuracy
  split <;> rfl

theorem rounded_bounds (m : ℕ) (e : ℤ) (acc : Accuracy) :
    m / 2 ^ shiftAmount m e ≤ rounded m e acc ∧
      rounded m e acc ≤ m / 2 ^ shiftAmount m e + 1 := by
  have hbounds := roundedMantissa_bounds
    (ExtendedMantissa.ofMantissaAndAccuracy m acc >>> shiftAmount m e)
  rw [shiftRight_mantissa, ofMantissaAndAccuracy_mantissa] at hbounds
  exact hbounds

theorem div_shiftAmount_lt (m : ℕ) (e : ℤ) :
    m / 2 ^ shiftAmount m e < 2 ^ 24 := by
  rw [Nat.div_lt_iff_lt_mul (Nat.two_pow_pos _), ← pow_add]
  calc m < 2 ^ (m.log2 + 1) := Nat.lt_log2_self
    _ ≤ 2 ^ (24 + shiftAmount m e) :=
      Nat.pow_le_pow_right (by norm_num) (by unfold shiftAmount; omega)

theorem shiftToTargetExponent_exponent (m : ℕ) (e : ℤ) (acc : Accuracy) :
    shiftToTargetExponent Format.binary32 m e acc =
      (ExtendedMantissa.ofMantissaAndAccuracy m acc >>> shiftAmount m e,
        e + shiftAmount m e) := by
  rw [shiftToTargetExponent, targetExponent_eq, shiftToExponent, shiftAmount]

theorem log2_le_of_short {m : ℕ} (hm : m < 2 ^ 24) : m.log2 ≤ 23 := by
  rcases Nat.eq_zero_or_pos m with rfl | hpos
  · simp
  · have hlt := (Nat.log2_lt hpos.ne').mpr hm
    omega

theorem shiftAmount_of_short
    {m : ℕ} {e : ℤ} (hm : m < 2 ^ 24) (he : -149 ≤ e) :
    shiftAmount m e = 0 := by
  have hlog := log2_le_of_short hm
  unfold shiftAmount
  omega

/-- A float of any significand, zero included. -/
def finiteOrZero (s : Sign) (m : ℕ) (e : ℤ) : UnpackedFloat :=
  if hzero : m = 0 then .zero s else .finite s m e (Nat.pos_of_ne_zero hzero)

theorem roundWithAccuracy_eq_shifted
    (s : Sign) (m : ℕ) (e : ℤ) (acc : Accuracy) :
    roundWithAccuracy Format.binary32 s m e acc =
      finiteOrZero s
        (rounded m e acc /
          2 ^ shiftAmount (rounded m e acc) (e + shiftAmount m e))
        (e + shiftAmount m e +
          shiftAmount (rounded m e acc) (e + shiftAmount m e)) := by
  unfold roundWithAccuracy
  simp only [shiftToTargetExponent_exponent, shiftRight_mantissa,
    ofMantissaAndAccuracy_mantissa]
  rfl

/-- Rounding shifts once, and once more if the significand has become too
long. -/
theorem roundWithAccuracy_eq
    (s : Sign) (m : ℕ) (e : ℤ) (acc : Accuracy) :
    roundWithAccuracy Format.binary32 s m e acc =
      if rounded m e acc < 2 ^ 24 then
        finiteOrZero s (rounded m e acc) (e + shiftAmount m e)
      else finiteOrZero s (2 ^ 23) (e + shiftAmount m e + 1) := by
  have hle : rounded m e acc ≤ 2 ^ 24 := by
    have hbounds := (rounded_bounds m e acc).2
    have hlt := div_shiftAmount_lt m e
    omega
  have hexponent : -149 ≤ e + shiftAmount m e := by
    unfold shiftAmount
    omega
  rw [roundWithAccuracy_eq_shifted]
  rcases hle.lt_or_eq with hlt | heq
  · rw [if_pos hlt, shiftAmount_of_short hlt hexponent, pow_zero, Nat.div_one,
      Nat.cast_zero, add_zero]
  · have hone : shiftAmount (2 ^ 24) (e + shiftAmount m e) = 1 := by
      rw [shiftAmount, Nat.log2_two_pow]
      omega
    rw [if_neg heq.not_lt, heq, hone]
    rfl

/-! ## Canonical floats -/

/-- The significand has the length the format asks for at this exponent. -/
structure Significand (m : ℕ) (e : ℤ) : Prop where
  short : m < 2 ^ 24
  least : -149 ≤ e
  full : 2 ^ 23 ≤ m ∨ e = -149

def Canonical : UnpackedFloat → Prop
  | .finite _ m e _ => Significand m e
  | _ => True

/-- Exponents behind the largest one of the format stand for infinity. -/
def overflow : UnpackedFloat → UnpackedFloat
  | .finite s m e hm => if e ≤ 104 then .finite s m e hm else .infinity s
  | u => u

theorem finiteOrZero_of_pos {s : Sign} {m : ℕ} {e : ℤ} (hm : 0 < m) :
    finiteOrZero s m e = .finite s m e hm :=
  dif_neg hm.ne'

/-- What the three fields of a float stand for. -/
def ofFields (s : Sign) (exponent : BitVec 8) (mantissa : BitVec 23) :
    UnpackedFloat :=
  if exponent = -1#8 then
    if mantissa = 0#23 then .infinity s else .notANumber
  else if exponent = 0#8 then finiteOrZero s mantissa.toNat (-149)
  else finiteOrZero s (2 ^ 23 + mantissa.toNat) (exponent.toNat - 150)

theorem unpack_eq_ofFields (b : BitVec 32) :
    unpack Format.binary32 b =
      ofFields (.ofBitVec (@unpackSign Format.binary32 b))
        (@unpackExponent Format.binary32 b)
        (@unpackMantissa Format.binary32 b) := by
  let exponent : BitVec 8 := @unpackExponent Format.binary32 b
  let mantissa : BitVec 23 := @unpackMantissa Format.binary32 b
  unfold unpack ofFields
  simp only
  by_cases hinfinity : exponent = -1#8
  · rw [if_pos hinfinity, if_pos hinfinity]
  · rw [if_neg hinfinity, if_neg hinfinity]
    by_cases hsubnormal : exponent = 0#8
    · rw [if_pos hsubnormal, if_pos hsubnormal]
      unfold finiteOrZero
      by_cases hzero : mantissa = 0#23
      · have hnat : mantissa.toNat = 0 := congrArg BitVec.toNat hzero
        rw [dif_pos hzero, dif_pos hnat]
      · have hnat : mantissa.toNat ≠ 0 :=
          fun hnat => hzero (BitVec.eq_of_toNat_eq hnat)
        rw [dif_neg hzero, dif_neg hnat]
        simp only [UnpackedFloat.finite.injEq, true_and]
        change ((exponent.toNat : ℤ) - 150 + 1) = -149
        rw [hsubnormal]
        rfl
    · have hvalue : (1#1 ++ mantissa).toNat = 2 ^ 23 + mantissa.toNat := by
        rw [BitVec.toNat_append, ← Nat.shiftLeft_add_eq_or_of_lt mantissa.isLt]
        rfl
      rw [if_neg hsubnormal, if_neg hsubnormal, finiteOrZero_of_pos (by omega)]
      simp only [UnpackedFloat.finite.injEq, true_and]
      exact ⟨hvalue, rfl⟩

theorem unpack_packComponents
    (s : Sign) (exponent : BitVec 8) (mantissa : BitVec 23) :
    unpack Format.binary32 (packComponents Format.binary32 s exponent mantissa) =
      ofFields s exponent mantissa := by
  rw [unpack_eq_ofFields, unpackSign_packComponents,
    unpackExponent_packComponents, unpackMantissa_packComponents,
    Sign.ofBitVec_toBitVec]

theorem neg_one_toNat : (-1#8).toNat = 255 := rfl

theorem ofFields_canonical
    (s : Sign) (exponent : BitVec 8) (mantissa : BitVec 23) :
    Canonical (ofFields s exponent mantissa) ∧
      overflow (ofFields s exponent mantissa) =
        ofFields s exponent mantissa := by
  have hexponent := exponent.isLt
  have hmantissa := mantissa.isLt
  unfold ofFields
  split_ifs with hinfinity hzero hsubnormal
  · exact ⟨trivial, rfl⟩
  · exact ⟨trivial, rfl⟩
  · unfold finiteOrZero
    split_ifs with hm
    · exact ⟨trivial, rfl⟩
    · exact ⟨⟨by omega, le_rfl, Or.inr rfl⟩, rfl⟩
  · have hbelow : exponent.toNat ≠ 255 :=
      fun heq => hinfinity (BitVec.eq_of_toNat_eq heq)
    have habove : exponent.toNat ≠ 0 :=
      fun heq => hsubnormal (BitVec.eq_of_toNat_eq heq)
    rw [finiteOrZero_of_pos (by omega)]
    exact ⟨⟨by omega, by omega, Or.inl (by omega)⟩, if_pos (by omega)⟩

theorem unpack_canonical (b : BitVec 32) :
    Canonical (unpack Format.binary32 b) ∧
      overflow (unpack Format.binary32 b) = unpack Format.binary32 b := by
  rw [unpack_eq_ofFields]
  exact ofFields_canonical _ _ _

theorem unpack_packedInfinity (s : Sign) :
    unpack Format.binary32 (packedInfinity Format.binary32 s) = .infinity s := by
  rw [packedInfinity, unpack_packComponents]
  rfl

theorem Significand.log2_iff
    {m : ℕ} {e : ℤ} (hm : Significand m e) (hpos : 0 < m) :
    m.log2 + 1 = 24 ↔ 2 ^ 23 ≤ m := by
  have hlog := log2_le_of_short hm.short
  have hle := Nat.le_log2 (k := 23) hpos.ne'
  omega

theorem ofFields_normal
    {m E : ℕ} (hlow : 1 ≤ E) (hhigh : E ≤ 254) (hfull : 2 ^ 23 ≤ m)
    (hshort : m < 2 ^ 24) (s : Sign) :
    ofFields s (BitVec.ofNat 8 E) (BitVec.ofNat 23 m) =
      finiteOrZero s m (E - 150) := by
  have hexponent : (BitVec.ofNat 8 E).toNat = E := by
    rw [BitVec.toNat_ofNat, Nat.mod_eq_of_lt (by omega)]
  have hmantissa : 2 ^ 23 + (BitVec.ofNat 23 m).toNat = m := by
    rw [BitVec.toNat_ofNat]
    omega
  have hinfinity : BitVec.ofNat 8 E ≠ -1#8 := by
    intro heq
    have hnat := congrArg BitVec.toNat heq
    rw [hexponent, neg_one_toNat] at hnat
    omega
  have hsubnormal : BitVec.ofNat 8 E ≠ 0#8 := by
    intro heq
    have hnat := congrArg BitVec.toNat heq
    rw [hexponent, BitVec.toNat_ofNat] at hnat
    omega
  rw [ofFields, if_neg hinfinity, if_neg hsubnormal, hexponent, hmantissa]

theorem ofFields_subnormal {m : ℕ} (hm : m < 2 ^ 23) (s : Sign) :
    ofFields s 0#8 (BitVec.ofNat 23 m) = finiteOrZero s m (-149) := by
  have hmantissa : (BitVec.ofNat 23 m).toNat = m := by
    rw [BitVec.toNat_ofNat, Nat.mod_eq_of_lt hm]
  rw [ofFields, if_neg (by decide), if_pos rfl, hmantissa]

/-- Packing keeps a float whose exponent has a place in the format. -/
theorem unpack_pack {u : UnpackedFloat} (hu : Canonical u) :
    unpack Format.binary32 (pack Format.binary32 u) = overflow u := by
  cases u with
  | infinity s => exact unpack_packedInfinity s
  | notANumber => exact unpack_packedNaN
  | zero s => exact unpack_packedZero
  | finite s m e hpos =>
      have hlog := hu.log2_iff hpos
      obtain ⟨hshort, hleast, hfull⟩ := hu
      have hpack : pack Format.binary32 (.finite s m e hpos) =
          if 256 ≤ (e + 127 + 23).toNat + 1 then
            packedInfinity Format.binary32 s
          else if m.log2 + 1 = 24 then
            packComponents Format.binary32 s
              (BitVec.ofNat 8 (e + 127 + 23).toNat) (BitVec.ofNat 23 m)
          else packComponents Format.binary32 s 0#8 (BitVec.ofNat 23 m) := rfl
      rw [hpack, overflow, ← finiteOrZero_of_pos]
      by_cases hlarge : e ≤ 104
      · rw [if_neg (by omega), if_pos hlarge]
        by_cases hnormal : m.log2 + 1 = 24
        · rw [if_pos hnormal, unpack_packComponents, ofFields_normal (by omega)
            (by omega) (hlog.mp hnormal) hshort]
          congr 1
          omega
        · have hsmall := mt hlog.mpr hnormal
          have he : e = -149 := by omega
          rw [if_neg hnormal, unpack_packComponents,
            ofFields_subnormal (by omega), he]
      · rw [if_pos (by omega), if_neg hlarge, unpack_packedInfinity]

/-! ## Rounding -/

theorem div_shiftAmount_full
    {m : ℕ} {e : ℤ} (henough : 23 ≤ m.log2 ∨ e ≤ -149) :
    2 ^ 23 ≤ m / 2 ^ shiftAmount m e ∨ e + shiftAmount m e = -149 := by
  rcases lt_or_ge ((m.log2 : ℤ) + e - 23) (-149) with hsmall | hlarge
  · right
    unfold shiftAmount
    omega
  · have hshift : shiftAmount m e = m.log2 - 23 := by
      unfold shiftAmount
      omega
    rcases Nat.lt_or_ge m.log2 23 with hshort | hlong
    · right
      unfold shiftAmount
      omega
    · left
      have hm : m ≠ 0 := by
        rintro rfl
        simp at hlong
      rw [Nat.le_div_iff_mul_le (Nat.two_pow_pos _), hshift, ← pow_add,
        Nat.add_sub_cancel' hlong]
      exact Nat.log2_self_le hm

theorem finiteOrZero_canonical
    {m : ℕ} {e : ℤ} (hm : Significand m e) (s : Sign) :
    Canonical (finiteOrZero s m e) := by
  unfold finiteOrZero
  split_ifs
  · trivial
  · exact hm

theorem roundWithAccuracy_canonical
    {m : ℕ} {e : ℤ} (henough : 23 ≤ m.log2 ∨ e ≤ -149) (s : Sign)
    (acc : Accuracy) :
    Canonical (roundWithAccuracy Format.binary32 s m e acc) := by
  have hleast : -149 ≤ e + shiftAmount m e := by
    unfold shiftAmount
    omega
  rw [roundWithAccuracy_eq]
  split_ifs with hshort
  · apply finiteOrZero_canonical
    refine ⟨hshort, hleast, ?_⟩
    rcases div_shiftAmount_full henough with hfull | hlast
    · exact Or.inl (hfull.trans (rounded_bounds m e acc).1)
    · exact Or.inr hlast
  · exact finiteOrZero_canonical
      ⟨by norm_num, by omega, Or.inl le_rfl⟩ s

/-! ## Below one -/

/-- In absolute value below one, for a canonical float. -/
def BelowOne : UnpackedFloat → Prop
  | .zero _ => True
  | .finite _ _ e _ => e ≤ -24
  | _ => False

theorem belowOne_finiteOrZero_iff {s : Sign} {m : ℕ} {e : ℤ} :
    BelowOne (finiteOrZero s m e) ↔ m = 0 ∨ e ≤ -24 := by
  unfold finiteOrZero
  split_ifs with hzero
  · exact iff_of_true trivial (Or.inl hzero)
  · exact (or_iff_right hzero).symm

theorem belowOne_overflow_iff (u : UnpackedFloat) :
    BelowOne (overflow u) ↔ BelowOne u := by
  cases u with
  | finite s m e hm =>
      rw [overflow]
      split_ifs with hlarge
      · rfl
      · exact iff_of_false id (by rw [BelowOne]; omega)
  | _ => rfl

/-- A significand which reaches one before it is rounded reaches one. -/
theorem not_belowOne_round
    {m : ℕ} {e : ℤ} (hm : 0 < m) (hone : 0 ≤ m.log2 + e) (s : Sign)
    (acc : Accuracy) :
    ¬ BelowOne (roundWithAccuracy Format.binary32 s m e acc) := by
  have hexponent : -23 ≤ e + shiftAmount m e := by
    unfold shiftAmount
    omega
  have hkept : 0 < m / 2 ^ shiftAmount m e := by
    apply Nat.div_pos _ (Nat.two_pow_pos _)
    calc 2 ^ shiftAmount m e ≤ 2 ^ m.log2 :=
          Nat.pow_le_pow_right (by norm_num) (by unfold shiftAmount; omega)
      _ ≤ m := Nat.log2_self_le hm.ne'
  have hpos := hkept.trans_le (rounded_bounds m e acc).1
  rw [roundWithAccuracy_eq]
  split_ifs
  · rw [belowOne_finiteOrZero_iff]
    omega
  · rw [belowOne_finiteOrZero_iff]
    omega

theorem rounded_le_of_exact_or_lt
    {m bound : ℕ} {e : ℤ} {acc : Accuracy}
    (hm : m < bound * 2 ^ shiftAmount m e ∨
      m = bound * 2 ^ shiftAmount m e ∧ acc = .exact) :
    rounded m e acc ≤ bound := by
  rcases hm with hlt | ⟨heq, rfl⟩
  · have hdiv := (Nat.div_lt_iff_lt_mul (Nat.two_pow_pos _)).mpr hlt
    have hbounds := (rounded_bounds m e acc).2
    omega
  · have hshift := shiftRight_exact bound (shiftAmount m e)
    rw [← heq] at hshift
    rw [rounded, ExtendedMantissa.ofMantissaAndAccuracy, hshift]
    exact le_rfl

/-- `1 - 2⁻²⁴` is the float before one, and nothing up to it is rounded to
one. -/
theorem belowOne_round
    {m n : ℕ} (hn : 24 ≤ n) {acc : Accuracy}
    (hm : m < (2 ^ 24 - 1) * 2 ^ (n - 24) ∨
      m = (2 ^ 24 - 1) * 2 ^ (n - 24) ∧ acc = .exact) (s : Sign) :
    BelowOne (roundWithAccuracy Format.binary32 s m (-n) acc) := by
  have hlog : m.log2 + 1 ≤ n := by
    rcases Nat.eq_zero_or_pos m with rfl | hpos
    · simp
      omega
    · have hlt : m < 2 ^ n := by
        have hsplit : 2 ^ n = 2 ^ 24 * 2 ^ (n - 24) := by
          rw [← pow_add, Nat.add_sub_cancel' hn]
        have htwo := Nat.two_pow_pos (n - 24)
        omega
      exact (Nat.log2_lt hpos.ne').mpr hlt
  rw [roundWithAccuracy_eq]
  rcases Nat.lt_or_ge (m.log2 + 1) n with hsmall | hlast
  · have hlow : rounded m (-n) acc < 2 ^ 24 ∨
        -(n : ℤ) + shiftAmount m (-n) + 1 ≤ -24 := by
      rcases hn.eq_or_lt with rfl | hlarge
      · -- nothing is shifted, and the significand has a digit to spare
        have hshift : shiftAmount m (-(24 : ℕ)) = 0 := by
          unfold shiftAmount
          omega
        have hbounds := (rounded_bounds m (-(24 : ℕ)) acc).2
        have hlt : m < 2 ^ 23 :=
          Nat.lt_log2_self.trans_le (Nat.pow_le_pow_right (by norm_num) (by omega))
        rw [hshift, pow_zero, Nat.div_one] at hbounds
        exact Or.inl (by omega)
      · right
        unfold shiftAmount
        omega
    split_ifs
    · refine belowOne_finiteOrZero_iff.mpr (Or.inr ?_)
      unfold shiftAmount
      omega
    · exact belowOne_finiteOrZero_iff.mpr (Or.inr (by omega))
  · have hshift : shiftAmount m (-n) = n - 24 := by
      unfold shiftAmount
      omega
    have hrounded : rounded m (-n) acc ≤ 2 ^ 24 - 1 :=
      rounded_le_of_exact_or_lt (by rw [hshift]; exact hm)
    rw [if_pos (by omega), hshift]
    exact belowOne_finiteOrZero_iff.mpr (Or.inr (by omega))

/-! ## The quotient -/

/-- The exponent of the integer quotient. -/
def quotientExponent (m₁ : ℕ) (e₁ : ℤ) (m₂ : ℕ) (e₂ : ℤ) : ℤ :=
  min (e₁ - e₂) (max (m₁.log2 + e₁ - (m₂.log2 + e₂) - 24) (-149))

/-- The dividend of the integer quotient. -/
def dividend (m₁ : ℕ) (e₁ : ℤ) (m₂ : ℕ) (e₂ : ℤ) : ℕ :=
  m₁ * 2 ^ (e₁ - e₂ - quotientExponent m₁ e₁ m₂ e₂).toNat

theorem divCore_eq (m₁ : ℕ) (e₁ : ℤ) (m₂ : ℕ) (e₂ : ℤ) :
    divCore Format.binary32 m₁ e₁ m₂ e₂ =
      (dividend m₁ e₁ m₂ e₂ / m₂, quotientExponent m₁ e₁ m₂ e₂,
        accuracyOfFraction (dividend m₁ e₁ m₂ e₂ % m₂) m₂) := by
  have hexponent : min (e₁ - e₂) (Format.binary32.targetExponent
      (totalExponent m₁ e₁ - totalExponent m₂ e₂)) =
        quotientExponent m₁ e₁ m₂ e₂ := by
    change min (e₁ - e₂)
      (max ((m₁.log2 + 1 + e₁ - (m₂.log2 + 1 + e₂) : ℤ) - 24) (-149)) = _
    unfold quotientExponent
    omega
  unfold divCore
  simp only [hexponent, Nat.shiftLeft_eq]
  rfl

/-- The integer quotient fills a significand. -/
theorem divCore_enough
    {m₁ m₂ : ℕ} (hm₁ : 0 < m₁) (hm₂ : 0 < m₂) (e₁ e₂ : ℤ) :
    23 ≤ (dividend m₁ e₁ m₂ e₂ / m₂).log2 ∨
      quotientExponent m₁ e₁ m₂ e₂ ≤ -149 := by
  rcases le_or_gt (quotientExponent m₁ e₁ m₂ e₂) (-149) with hlast | hlarge
  · exact Or.inr hlast
  · left
    have hshift : m₂.log2 + 24 ≤
        m₁.log2 + (e₁ - e₂ - quotientExponent m₁ e₁ m₂ e₂).toNat := by
      unfold quotientExponent at hlarge ⊢
      omega
    have hquotient : 2 ^ 23 ≤ dividend m₁ e₁ m₂ e₂ / m₂ := by
      rw [Nat.le_div_iff_mul_le hm₂]
      calc 2 ^ 23 * m₂ ≤ 2 ^ 23 * 2 ^ (m₂.log2 + 1) :=
            Nat.mul_le_mul_left _ Nat.lt_log2_self.le
        _ = 2 ^ (m₂.log2 + 24) := by rw [← pow_add]; congr 1; omega
        _ ≤ 2 ^ (m₁.log2 + (e₁ - e₂ -
            quotientExponent m₁ e₁ m₂ e₂).toNat) :=
          Nat.pow_le_pow_right (by norm_num) hshift
        _ ≤ dividend m₁ e₁ m₂ e₂ := by
          rw [pow_add, dividend]
          exact Nat.mul_le_mul_right _ (Nat.log2_self_le hm₁.ne')
    exact (Nat.le_log2 (by omega)).mpr hquotient

/-- The order of canonical floats of one sign. -/
def Smaller (m₁ : ℕ) (e₁ : ℤ) (m₂ : ℕ) (e₂ : ℤ) : Prop :=
  e₁ < e₂ ∨ e₁ = e₂ ∧ m₁ < m₂

/-- A quotient of a smaller float by a larger one stays clear of one. -/
theorem dividend_le
    {m₁ m₂ : ℕ} {e₁ e₂ : ℤ} (hm₁ : Significand m₁ e₁)
    (hm₂ : Significand m₂ e₂) (hsmaller : Smaller m₁ e₁ m₂ e₂) {n : ℕ}
    (hn : quotientExponent m₁ e₁ m₂ e₂ = -n) :
    2 ^ 24 * dividend m₁ e₁ m₂ e₂ ≤ (2 ^ 24 - 1) * (m₂ * 2 ^ n) := by
  have hshort₁ := hm₁.short
  have hshort₂ := hm₂.short
  rw [dividend, hn]
  rcases hsmaller with hexponent | ⟨rfl, hlt⟩
  · have hfull := hm₂.full.resolve_right (by have := hm₁.least; omega)
    obtain ⟨k, hk⟩ : ∃ k, n = (e₁ - e₂ - -(n : ℤ)).toNat + 1 + k :=
      Nat.exists_eq_add_of_le (by unfold quotientExponent at hn; omega)
    generalize (e₁ - e₂ - -(n : ℤ)).toNat = shift at hk
    subst hk
    calc 2 ^ 24 * (m₁ * 2 ^ shift) = 2 ^ 24 * m₁ * 2 ^ shift := by ring
      _ ≤ (2 ^ 24 - 1) * (2 * m₂) * 2 ^ shift :=
        Nat.mul_le_mul_right _ (by omega)
      _ = (2 ^ 24 - 1) * (m₂ * 2 ^ (shift + 1)) := by ring
      _ ≤ (2 ^ 24 - 1) * (m₂ * 2 ^ (shift + 1 + k)) :=
        Nat.mul_le_mul_left _ (Nat.mul_le_mul_left _
          (Nat.pow_le_pow_right (by norm_num) (Nat.le_add_right _ _)))
  · have hshift : (e₁ - e₁ - -(n : ℤ)).toNat = n := by omega
    rw [hshift, ← mul_assoc, ← mul_assoc]
    exact Nat.mul_le_mul_right _ (by omega)

theorem quotient_belowOne
    {m₁ m₂ : ℕ} {e₁ e₂ : ℤ} (hm₁ : Significand m₁ e₁)
    (hm₂ : Significand m₂ e₂) (hpos₁ : 0 < m₁) (hpos : 0 < m₂)
    (hsmaller : Smaller m₁ e₁ m₂ e₂) (s : Sign) :
    BelowOne (roundWithAccuracy Format.binary32 s
      (dividend m₁ e₁ m₂ e₂ / m₂) (quotientExponent m₁ e₁ m₂ e₂)
      (accuracyOfFraction (dividend m₁ e₁ m₂ e₂ % m₂) m₂)) := by
  have hlog : (m₁.log2 : ℤ) + e₁ - (m₂.log2 + e₂) ≤ 0 := by
    have hlog₁ := log2_le_of_short hm₁.short
    rcases hsmaller with hexponent | ⟨rfl, hlt⟩
    · have hfull := hm₂.full.resolve_right (by have := hm₁.least; omega)
      have hlog₂ := (Nat.le_log2 hpos.ne').mpr hfull
      omega
    · have hmono := (Nat.le_log2 hpos.ne').mpr
        ((Nat.log2_self_le hpos₁.ne').trans hlt.le)
      omega
  obtain ⟨n, hn⟩ : ∃ n : ℕ, quotientExponent m₁ e₁ m₂ e₂ = -n :=
    ⟨(-quotientExponent m₁ e₁ m₂ e₂).toNat, by
      unfold quotientExponent; omega⟩
  have hlarge : 24 ≤ n := by
    unfold quotientExponent at hn
    omega
  have hsplit : 2 ^ n = 2 ^ 24 * 2 ^ (n - 24) := by
    rw [← pow_add, Nat.add_sub_cancel' hlarge]
  have hle : dividend m₁ e₁ m₂ e₂ ≤ (2 ^ 24 - 1) * 2 ^ (n - 24) * m₂ := by
    have hdividend := dividend_le hm₁ hm₂ hsmaller hn
    rw [hsplit] at hdividend
    apply Nat.le_of_mul_le_mul_left _ (Nat.two_pow_pos 24)
    calc 2 ^ 24 * dividend m₁ e₁ m₂ e₂ ≤ _ := hdividend
      _ = 2 ^ 24 * ((2 ^ 24 - 1) * 2 ^ (n - 24) * m₂) := by ring
  rw [hn]
  apply belowOne_round hlarge
  rcases (Nat.div_le_of_le_mul (by rw [mul_comm]; exact hle) :
    dividend m₁ e₁ m₂ e₂ / m₂ ≤ (2 ^ 24 - 1) * 2 ^ (n - 24)).lt_or_eq
    with hlt | heq
  · exact Or.inl hlt
  · -- the largest quotient there is leaves no remainder
    have hmod : dividend m₁ e₁ m₂ e₂ % m₂ = 0 := by
      have hdivmod := Nat.div_add_mod (dividend m₁ e₁ m₂ e₂) m₂
      rw [heq, mul_comm] at hdivmod
      omega
    exact Or.inr ⟨heq, by rw [hmod]; rfl⟩

theorem quotient_not_belowOne
    {m₁ m₂ : ℕ} {e₁ e₂ : ℤ} (hm₁ : Significand m₁ e₁)
    (hm₂ : Significand m₂ e₂) (hpos : 0 < m₂)
    (hlarger : ¬ Smaller m₁ e₁ m₂ e₂) (s : Sign) (acc : Accuracy) :
    ¬ BelowOne (roundWithAccuracy Format.binary32 s
      (dividend m₁ e₁ m₂ e₂ / m₂) (quotientExponent m₁ e₁ m₂ e₂) acc) := by
  have hlog₁ := log2_le_of_short hm₁.short
  have hshort := hm₂.short
  have hreach : m₂ * 2 ^ (-quotientExponent m₁ e₁ m₂ e₂).toNat ≤
      dividend m₁ e₁ m₂ e₂ := by
    rw [dividend]
    rcases lt_or_ge e₂ e₁ with hexponent | hexponent
    · have hfull := hm₁.full.resolve_right (by have := hm₂.least; omega)
      have hshift : 1 + (-quotientExponent m₁ e₁ m₂ e₂).toNat ≤
          (e₁ - e₂ - quotientExponent m₁ e₁ m₂ e₂).toNat := by
        unfold quotientExponent
        omega
      calc m₂ * 2 ^ (-quotientExponent m₁ e₁ m₂ e₂).toNat
          ≤ m₁ * 2 * 2 ^ (-quotientExponent m₁ e₁ m₂ e₂).toNat :=
            Nat.mul_le_mul_right _ (by omega)
        _ = m₁ * 2 ^ (1 + (-quotientExponent m₁ e₁ m₂ e₂).toNat) := by ring
        _ ≤ _ :=
          Nat.mul_le_mul_left _ (Nat.pow_le_pow_right (by norm_num) hshift)
    · have heq : e₁ = e₂ := by
        unfold Smaller at hlarger
        omega
      have hle : m₂ ≤ m₁ := by
        unfold Smaller at hlarger
        omega
      rw [heq, sub_self, zero_sub]
      exact Nat.mul_le_mul_right _ hle
  have hquotient : 2 ^ (-quotientExponent m₁ e₁ m₂ e₂).toNat ≤
      dividend m₁ e₁ m₂ e₂ / m₂ := by
    rw [Nat.le_div_iff_mul_le hpos, mul_comm]
    exact hreach
  have hquotientPos := (Nat.two_pow_pos _).trans_le hquotient
  have hlog := (Nat.le_log2 hquotientPos.ne').mpr hquotient
  exact not_belowOne_round hquotientPos (by omega) s acc

/-! ## Comparison -/

theorem compare_finite_lt_iff {m₁ m₂ : ℕ} {e₁ e₂ : ℤ} :
    (compare e₁ e₂).then (compare m₁ m₂) = .lt ↔ Smaller m₁ e₁ m₂ e₂ := by
  rw [Ordering.then_eq_lt, compare_lt_iff_lt, compare_eq_iff_eq,
    compare_lt_iff_lt, Smaller]

theorem lt_finite_iff
    {m₁ m₂ : ℕ} {e₁ e₂ : ℤ} (hm₁ : 0 < m₁) (hm₂ : 0 < m₂) :
    UnpackedFloat.lt (.finite .positive m₁ e₁ hm₁)
        (.finite .positive m₂ e₂ hm₂) = true ↔ Smaller m₁ e₁ m₂ e₂ := by
  rw [← compare_finite_lt_iff]
  simp [UnpackedFloat.lt, UnpackedFloat.compare]

/-- One, as the format has it. -/
def one : UnpackedFloat := .finite .positive (2 ^ 23) (-23) (by norm_num)

theorem lt_one_iff {u : UnpackedFloat} (hu : Canonical u) :
    UnpackedFloat.lt u.abs one = true ↔ BelowOne u := by
  cases u with
  | infinity s => exact iff_of_false Bool.false_ne_true id
  | notANumber => exact iff_of_false Bool.false_ne_true id
  | zero s => exact iff_of_true rfl trivial
  | finite s m e hm =>
      have hfull := hu.full
      rw [UnpackedFloat.abs, one, lt_finite_iff, Smaller, BelowOne]
      omega

theorem div_belowOne_iff
    {u v : UnpackedFloat} (hu : Canonical u) (hv : Canonical v) :
    Canonical (div Format.binary32 u v) ∧
      (BelowOne (div Format.binary32 u v) ↔
        UnpackedFloat.lt u.abs v.abs = true) := by
  cases u with
  | notANumber => cases v <;> exact ⟨trivial, iff_of_false id Bool.false_ne_true⟩
  | infinity s =>
      cases v with
      | _ => exact ⟨trivial, iff_of_false id Bool.false_ne_true⟩
  | zero s =>
      cases v with
      | notANumber | zero => exact ⟨trivial, iff_of_false id Bool.false_ne_true⟩
      | infinity | finite => exact ⟨trivial, iff_of_true trivial rfl⟩
  | finite s m e hm =>
      cases v with
      | notANumber | zero => exact ⟨trivial, iff_of_false id Bool.false_ne_true⟩
      | infinity => exact ⟨trivial, iff_of_true trivial rfl⟩
      | finite s' m' e' hm' =>
          have hdiv : div Format.binary32 (.finite s m e hm)
              (.finite s' m' e' hm') =
                roundWithAccuracy Format.binary32 (s / s')
                  (dividend m e m' e' / m') (quotientExponent m e m' e')
                  (accuracyOfFraction (dividend m e m' e' % m') m') := by
            rw [div, divCore_eq]
          rw [hdiv, UnpackedFloat.abs, UnpackedFloat.abs, lt_finite_iff]
          refine ⟨roundWithAccuracy_canonical
            (divCore_enough hm hm' e e') _ _, ?_⟩
          by_cases hsmaller : Smaller m e m' e'
          · exact iff_of_true (quotient_belowOne hu hv hm hm' hsmaller _)
              hsmaller
          · exact iff_of_false
              (quotient_not_belowOne hu hv hm' hsmaller _ _) hsmaller

/-! ## Float32 -/

/-- Every float is canonical, and none of them overflows. -/
theorem unpack_toModel_canonical (a : Float32) :
    Canonical a.toModel.unpack ∧
      overflow a.toModel.unpack = a.toModel.unpack :=
  unpack_canonical a.toModel.toBits.toBitVec

theorem unpack_toModel_pack {u : UnpackedFloat} (hu : Canonical u) :
    (Float32.Model.pack u).unpack = overflow u :=
  unpack_pack hu

theorem abs_canonical {u : UnpackedFloat} (hu : Canonical u) :
    Canonical u.abs := by
  cases u <;> exact hu

theorem overflow_abs (u : UnpackedFloat) :
    overflow u.abs = (overflow u).abs := by
  cases u with
  | finite s m e hm =>
      rw [UnpackedFloat.abs, overflow, overflow]
      split_ifs <;> rfl
  | _ => rfl

theorem lt_iff_unpack {a b : Float32} :
    a < b ↔ UnpackedFloat.lt a.toModel.unpack b.toModel.unpack = true := by
  change decide (a.toModel.lt b.toModel = true) = true ↔ _
  rw [decide_eq_true_iff]
  rfl

theorem unpack_abs (a : Float32) :
    a.abs.toModel.unpack = a.toModel.unpack.abs := by
  have ha := unpack_toModel_canonical a
  have hpack := unpack_toModel_pack (abs_canonical ha.1)
  rw [overflow_abs, ha.2] at hpack
  exact hpack

theorem unpack_one : (1 : Float32).toModel.unpack = one := by
  rfl

theorem canonical_overflow {u : UnpackedFloat} (hu : Canonical u) :
    Canonical (overflow u) := by
  cases u with
  | finite s m e hm =>
      rw [overflow]
      split_ifs
      · exact hu
      · trivial
  | _ => exact hu

theorem unpack_div (a b : Float32) :
    (a / b).toModel.unpack =
      overflow (div Format.binary32 a.toModel.unpack b.toModel.unpack) :=
  unpack_toModel_pack (div_belowOne_iff (unpack_toModel_canonical a).1
    (unpack_toModel_canonical b).1).1

/-- Rounding does not carry a quotient across one. -/
theorem abs_div_lt_one_iff (a b : Float32) :
    (a / b).abs < 1 ↔ a.abs < b.abs := by
  obtain ⟨hcanonical, hbelow⟩ := div_belowOne_iff
    (unpack_toModel_canonical a).1 (unpack_toModel_canonical b).1
  rw [lt_iff_unpack, lt_iff_unpack, unpack_abs, unpack_abs, unpack_abs,
    unpack_one, unpack_div, lt_one_iff (canonical_overflow hcanonical),
    belowOne_overflow_iff]
  exact hbelow

/-! ## Square roots -/

theorem abs_finiteOrZero (m : ℕ) (e : ℤ) :
    (finiteOrZero .positive m e).abs = finiteOrZero .positive m e := by
  unfold finiteOrZero
  split_ifs <;> rfl

theorem abs_ofFields (exponent : BitVec 8) (mantissa : BitVec 23) :
    (ofFields .positive exponent mantissa).abs =
      ofFields .positive exponent mantissa := by
  unfold ofFields
  split_ifs
  · rfl
  · rfl
  · exact abs_finiteOrZero _ _
  · exact abs_finiteOrZero _ _

/-- Packing keeps a positive sign, also of a float which is not canonical. -/
theorem abs_unpack_pack {u : UnpackedFloat} (hu : u.abs = u) :
    (unpack Format.binary32 (pack Format.binary32 u)).abs =
      unpack Format.binary32 (pack Format.binary32 u) := by
  cases u with
  | notANumber => rw [pack, unpack_packedNaN]; rfl
  | infinity s => rw [pack, unpack_packedInfinity]; exact hu
  | zero s => rw [pack, unpack_packedZero]; exact hu
  | finite s m e hm =>
      rw [UnpackedFloat.abs, UnpackedFloat.finite.injEq] at hu
      rw [← hu.1]
      unfold pack
      simp only
      split_ifs
      · rw [unpack_packedInfinity]
        rfl
      · rw [unpack_packComponents]
        exact abs_ofFields _ _
      · rw [unpack_packComponents]
        exact abs_ofFields _ _

/-- The root of a float has no sign, unless it is a zero. -/
theorem sqrt_abs_or_zero (u : UnpackedFloat) :
    (UnpackedFloat.sqrt Format.binary32 u).abs =
        UnpackedFloat.sqrt Format.binary32 u ∨
      ∃ s, UnpackedFloat.sqrt Format.binary32 u = .zero s := by
  cases u with
  | notANumber => exact Or.inl rfl
  | infinity s => cases s <;> exact Or.inl rfl
  | zero s => exact Or.inr ⟨s, rfl⟩
  | finite s m e hm =>
      left
      cases s with
      | negative => rfl
      | positive =>
          rw [UnpackedFloat.sqrt]
          simp only
          rw [roundWithAccuracy_eq]
          split_ifs <;> exact abs_finiteOrZero _ _

theorem lt_zero_congr (x : UnpackedFloat) (s s' : Sign) :
    x.lt (.zero s) = x.lt (.zero s') := by
  cases x with
  | infinity sign => cases sign <;> rfl
  | finite sign m e hm => cases sign <;> rfl
  | _ => rfl

theorem lt_abs_sqrt_iff (x r : Float32) :
    x < r.sqrt.abs ↔ x < r.sqrt := by
  rw [lt_iff_unpack, lt_iff_unpack, unpack_abs]
  have hsqrt : r.sqrt.toModel.unpack = unpack Format.binary32
      (pack Format.binary32
        (UnpackedFloat.sqrt Format.binary32 r.toModel.unpack)) := rfl
  rw [hsqrt]
  rcases sqrt_abs_or_zero r.toModel.unpack with habs | ⟨s, hzero⟩
  · rw [abs_unpack_pack habs]
  · rw [hzero, pack, unpack_packedZero, UnpackedFloat.abs,
      lt_zero_congr _ .positive s]

theorem abs_div_sqrt_lt_one_iff (a r : Float32) :
    (a / r.sqrt).abs < 1 ↔ a.abs < r.sqrt := by
  rw [abs_div_lt_one_iff, lt_abs_sqrt_iff]

end FloatQuotient
end StockFeed
