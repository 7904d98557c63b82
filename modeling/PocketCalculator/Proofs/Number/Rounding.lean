import PocketCalculator.Number.Double
import Mathlib.Algebra.Order.Field.Rat
import Mathlib.Algebra.Order.Field.Power
import Mathlib.Tactic.Linarith
import Mathlib.Tactic.Positivity
import Mathlib.Tactic.Ring

/-! How large a number must be for its rounded double to have a large exponent. Rounding drops bits
and then adds at most one half of the last place, so that bounds from below are all that has to be
followed through it. They are counted in `halves` of the last place. -/

namespace PocketCalculator.Rounding
open Float.Model UnpackedFloat

def halves (em : ExtendedMantissa) : ℕ := 2 * em.mantissa + em.roundBit.toNat

theorem halves_shiftRightOne_mul_le (em : ExtendedMantissa) :
    halves em.shiftRightOne * 2 ≤ halves em := by
  have hbit : (em.mantissa % 2 != 0).toNat = em.mantissa % 2 := by
    rcases Nat.mod_two_eq_zero_or_one em.mantissa with h | h <;> rw [h] <;> rfl
  have hhalves : halves em.shiftRightOne = em.mantissa := by
    show 2 * (em.mantissa / 2) + (em.mantissa % 2 != 0).toNat = em.mantissa
    rw [hbit, Nat.div_add_mod]
  rw [hhalves, halves]
  omega

theorem halves_shiftRight_mul_le (em : ExtendedMantissa) (n : ℕ) :
    halves (em >>> n) * 2 ^ n ≤ halves em := by
  induction n with
  | zero => exact Nat.le_of_eq (Nat.mul_one _)
  | succ n ih =>
    calc halves (em >>> (n + 1)) * 2 ^ (n + 1)
        = halves (em >>> n).shiftRightOne * 2 * 2 ^ n := by
          rw [Nat.pow_succ, Nat.mul_comm (2 ^ n), Nat.mul_assoc]
          rfl
      _ ≤ halves (em >>> n) * 2 ^ n := Nat.mul_le_mul_right _ (halves_shiftRightOne_mul_le _)
      _ ≤ halves em := ih

theorem roundedMantissa_le (em : ExtendedMantissa) : 2 * em.roundedMantissa ≤ halves em + 1 := by
  obtain ⟨m, roundBit, stickyBit⟩ := em
  have hmod : m % 2 < 2 := Nat.mod_lt _ (by decide)
  cases roundBit <;> cases stickyBit
  · show 2 * m ≤ 2 * m + 0 + 1
    omega
  · show 2 * m ≤ 2 * m + 0 + 1
    omega
  · show 2 * (m + m % 2) ≤ 2 * m + 1 + 1
    omega
  · show 2 * (m + 1) ≤ 2 * m + 1 + 1
    omega

theorem mantissa_le_halves (m : ℕ) (acc : Accuracy) :
    2 * m ≤ halves (.ofMantissaAndAccuracy m acc) := by
  have hmantissa : (ExtendedMantissa.ofMantissaAndAccuracy m acc).mantissa = m := by
    cases acc with
    | exact => rfl
    | inexact o => cases o <;> rfl
  rw [halves, hmantissa]
  omega

variable {m : ℕ} {e k : ℤ} {acc : Accuracy} {x : ℚ}

theorem shiftToTargetExponent_lt (he : e < k) (hk : -1074 < k)
    (h : (m : ℚ) * 2 ^ e < 2 ^ (k + 52)) :
    (shiftToTargetExponent Format.binary64 m e acc).2 < k := by
  have htarget : Format.binary64.targetExponent (totalExponent m e) =
      max ((m.log2 : ℤ) + 1 + e - 53) (-1074) := rfl
  have hexponent : (shiftToTargetExponent Format.binary64 m e acc).2 =
      e + (Format.binary64.targetExponent (totalExponent m e) - e).toNat := rfl
  by_contra hn
  have hlog : k + 52 ≤ (m.log2 : ℤ) + e := by omega
  have hm : m ≠ 0 := by
    rintro rfl
    have hzero : Nat.log2 0 = 0 := rfl
    rw [hzero] at hlog
    omega
  have hle : ((2 ^ m.log2 : ℕ) : ℚ) ≤ m := Nat.cast_le.2 (Nat.log2_self_le hm)
  have hlarge : (2 : ℚ) ^ (k + 52) ≤ m * 2 ^ e :=
    calc (2 : ℚ) ^ (k + 52)
        ≤ 2 ^ ((m.log2 : ℤ) + e) := zpow_le_zpow_right₀ (by norm_num) hlog
      _ = ((2 ^ m.log2 : ℕ) : ℚ) * 2 ^ e := by
        rw [zpow_add₀ (by norm_num), zpow_natCast, Nat.cast_pow, Nat.cast_ofNat]
      _ ≤ m * 2 ^ e := mul_le_mul_of_nonneg_right hle (by positivity)
  exact absurd h (not_lt.2 hlarge)

theorem halves_shiftToTargetExponent_le
    (h : halves (.ofMantissaAndAccuracy m acc) * 2 ^ e ≤ 2 * x) :
    let shifted := shiftToTargetExponent Format.binary64 m e acc
    halves shifted.1 * 2 ^ shifted.2 ≤ 2 * x := by
  intro shifted
  obtain ⟨n, hn⟩ : ∃ n, n = (Format.binary64.targetExponent (totalExponent m e) - e).toNat :=
    ⟨_, rfl⟩
  have hmantissa : shifted.1 = ExtendedMantissa.ofMantissaAndAccuracy m acc >>> n := by
    rw [hn]
    rfl
  have hexponent : shifted.2 = e + n := by
    rw [hn]
    rfl
  have hle : ((halves shifted.1 * 2 ^ n : ℕ) : ℚ) ≤ halves (.ofMantissaAndAccuracy m acc) := by
    rw [hmantissa]
    exact Nat.cast_le.2 (halves_shiftRight_mul_le _ n)
  calc halves shifted.1 * (2 : ℚ) ^ shifted.2
      = ((halves shifted.1 * 2 ^ n : ℕ) : ℚ) * 2 ^ e := by
        rw [hexponent, zpow_add₀ (by norm_num), zpow_natCast, Nat.cast_mul, Nat.cast_pow,
          Nat.cast_ofNat]
        ring
    _ ≤ halves (.ofMantissaAndAccuracy m acc) * 2 ^ e :=
        mul_le_mul_of_nonneg_right hle (by positivity)
    _ ≤ 2 * x := h

def Below (k : ℤ) : UnpackedFloat → Prop
  | .zero _ => True
  | .finite _ _ e _ => e < k
  | _ => False

/-- Half a unit in the last place below the least power of two whose double has the exponent
`k`. -/
def threshold (k : ℤ) : ℚ := 2 ^ (k + 52) - 2 ^ (k - 2)

theorem threshold_lt (k : ℤ) : threshold k < 2 ^ (k + 52) := sub_lt_self _ (by positivity)

theorem lt_threshold (k : ℤ) : 2 ^ (k + 51) < threshold k := by
  have hhalf : (2 : ℚ) ^ (k + 52) = 2 * 2 ^ (k + 51) := by
    rw [← zpow_one_add₀ (by norm_num)]
    congr 1
    omega
  have hsmall : (2 : ℚ) ^ (k - 2) < 2 ^ (k + 51) := zpow_lt_zpow_right₀ (by norm_num) (by omega)
  rw [threshold]
  linarith

theorem mul_two_zpow_lt_threshold (hm : m < 2 ^ 53) (he : e < k) :
    (m : ℚ) * 2 ^ e < threshold k := by
  have hcast : (m : ℚ) ≤ 2 ^ 53 - 1 := by
    rw [le_sub_iff_add_le]
    exact_mod_cast hm
  have hexponent : (2 : ℚ) ^ e ≤ 2 ^ (k - 1) := zpow_le_zpow_right₀ (by norm_num) (by omega)
  have hlast : (2 : ℚ) ^ (k - 2) < 2 ^ (k - 1) := zpow_lt_zpow_right₀ (by norm_num) (by omega)
  have htop : (2 : ℚ) ^ (k + 52) = 2 ^ 53 * 2 ^ (k - 1) := by
    rw [← zpow_natCast, ← zpow_add₀ (by norm_num)]
    congr 1
    push_cast
    omega
  calc (m : ℚ) * 2 ^ e ≤ (2 ^ 53 - 1) * 2 ^ (k - 1) :=
        mul_le_mul hcast hexponent (by positivity) (by norm_num)
    _ = 2 ^ (k + 52) - 2 ^ (k - 1) := by rw [htop]; ring
    _ < threshold k := sub_lt_sub_left hlast _

theorem mul_le_of_halves (h : halves (.ofMantissaAndAccuracy m acc) * 2 ^ e ≤ 2 * x) :
    (m : ℚ) * 2 ^ e ≤ x := by
  have hle : ((2 * m : ℕ) : ℚ) ≤ halves (.ofMantissaAndAccuracy m acc) :=
    Nat.cast_le.2 (mantissa_le_halves m acc)
  have hunit : (0 : ℚ) ≤ 2 ^ e := by positivity
  have hmul := (mul_le_mul_of_nonneg_right hle hunit).trans h
  push_cast at hmul
  linarith

theorem roundedMantissa_mul_le {em : ExtendedMantissa} (he : e < k)
    (h : halves em * 2 ^ e ≤ 2 * x) : (em.roundedMantissa : ℚ) * 2 ^ e ≤ x + 2 ^ (k - 2) := by
  have hrounded : ((2 * em.roundedMantissa : ℕ) : ℚ) ≤ (halves em + 1 : ℕ) :=
    Nat.cast_le.2 (roundedMantissa_le em)
  have hunit : (0 : ℚ) ≤ 2 ^ e := by positivity
  have hplace : (2 : ℚ) ^ e ≤ 2 ^ (k - 1) := zpow_le_zpow_right₀ (by norm_num) (by omega)
  have hhalf : (2 : ℚ) ^ (k - 1) = 2 * 2 ^ (k - 2) := by
    rw [← zpow_one_add₀ (by norm_num)]
    congr 1
    omega
  have hall := mul_le_mul_of_nonneg_right hrounded hunit
  push_cast at hall
  linarith

theorem below_roundWithAccuracy (s : UnpackedFloat.Sign) (he : e < k) (hk : -1074 < k)
    (hx : halves (.ofMantissaAndAccuracy m acc) * 2 ^ e ≤ 2 * x) (hlt : x < threshold k) :
    Below k (roundWithAccuracy Format.binary64 s m e acc) := by
  obtain ⟨first, hfirst⟩ : ∃ first, first = shiftToTargetExponent Format.binary64 m e acc :=
    ⟨_, rfl⟩
  obtain ⟨r, hr⟩ : ∃ r, r = first.1.roundedMantissa := ⟨_, rfl⟩
  obtain ⟨last, hlast⟩ : ∃ last, last = shiftToTargetExponent Format.binary64 r first.2 .exact :=
    ⟨_, rfl⟩
  have hround : roundWithAccuracy Format.binary64 s m e acc =
      if h : last.1.mantissa = 0 then .zero s
      else .finite s last.1.mantissa last.2 (Nat.pos_of_ne_zero h) := by
    rw [hlast, hr, hfirst]
    rfl
  have hfirstlt : first.2 < k := by
    have hm : (m : ℚ) * 2 ^ e < 2 ^ (k + 52) :=
      (mul_le_of_halves hx).trans_lt (hlt.trans (threshold_lt k))
    rw [hfirst]
    exact shiftToTargetExponent_lt he hk hm
  -- Only here does it matter how far below the power of two the number is.
  have hlastlt : last.2 < k := by
    have hhalves : halves first.1 * 2 ^ first.2 ≤ 2 * x := by
      rw [hfirst]
      exact halves_shiftToTargetExponent_le hx
    have hr' : (r : ℚ) * 2 ^ first.2 < 2 ^ (k + 52) := by
      rw [hr]
      exact (roundedMantissa_mul_le hfirstlt hhalves).trans_lt (lt_sub_iff_add_lt.1 hlt)
    rw [hlast]
    exact shiftToTargetExponent_lt hfirstlt hk hr'
  rw [hround]
  by_cases hz : last.1.mantissa = 0
  · rw [dif_pos hz]
    trivial
  · rw [dif_neg hz]
    exact hlastlt

theorem below_neg {u : UnpackedFloat} (h : Below k u) : Below k u.neg := by
  cases u with
  | zero s => trivial
  | finite s m e hm => exact h
  | infinity s => cases h
  | notANumber => cases h

theorem unpackExponent_pack_lt (hk : -1074 < k) (hmax : k ≤ 972) {u : UnpackedFloat}
    (h : Below k u) :
    ((@unpackExponent Format.binary64 (pack Format.binary64 u)).toNat : ℤ) < k + 1075 := by
  cases u with
  | infinity s => cases h
  | notANumber => cases h
  | zero s =>
    have hzero : (@unpackExponent Format.binary64 (packedZero Format.binary64 s)).toNat = 0 := by
      rw [packedZero, unpackExponent_packComponents]
      rfl
    show ((@unpackExponent Format.binary64 (packedZero Format.binary64 s)).toNat : ℤ) < k + 1075
    rw [hzero]
    omega
  | finite s m e hm =>
    have he : e < k := h
    obtain ⟨field, hfield⟩ : ∃ field, field = (e + 1023 + 52).toNat := ⟨_, rfl⟩
    have hpack : pack Format.binary64 (.finite s m e hm) =
        if 2 ^ 11 ≤ field + 1 then packedInfinity Format.binary64 s
        else if m.log2 + 1 = 53 then
          packComponents Format.binary64 s (BitVec.ofNat 11 field) (BitVec.ofNat 52 m)
        else packComponents Format.binary64 s 0#11 (BitVec.ofNat 52 m) := by
      rw [hfield]
      rfl
    rw [hpack, if_neg (by omega)]
    by_cases hnormal : m.log2 + 1 = 53
    · rw [if_pos hnormal, unpackExponent_packComponents, BitVec.toNat_ofNat]
      have hle : field % 2 ^ Format.binary64.exponentBits ≤ field := Nat.mod_le _ _
      omega
    · rw [if_neg hnormal, unpackExponent_packComponents, BitVec.toNat_zero]
      omega

theorem unpack_cases (b : BitVec 64)
    (hk : ((@unpackExponent Format.binary64 b).toNat : ℤ) < k + 1075) (hmin : -1074 < k)
    (hmax : k ≤ 972) :
    (∃ s, unpack Format.binary64 b = .zero s) ∨
      ∃ s m e h, unpack Format.binary64 b = .finite s m e h ∧ m < 2 ^ 53 ∧ e < k := by
  obtain ⟨s, hs⟩ : ∃ s, s = UnpackedFloat.Sign.ofBitVec (@unpackSign Format.binary64 b) :=
    ⟨_, rfl⟩
  obtain ⟨field, hfield⟩ : ∃ field : BitVec 11, field = @unpackExponent Format.binary64 b :=
    ⟨_, rfl⟩
  obtain ⟨fraction, hfraction⟩ : ∃ fraction : BitVec 52,
      fraction = @unpackMantissa Format.binary64 b := ⟨_, rfl⟩
  have hhidden : 0 < (1#1 ++ fraction).toNat := by
    rw [BitVec.toNat_append]
    exact Nat.lt_of_lt_of_le (by decide) Nat.left_le_or
  have hunpack : unpack Format.binary64 b =
      if field = -1#_ then if fraction = 0#_ then .infinity s else .notANumber
      else if field = 0#_ then
        if h : fraction = 0#_ then .zero s
        else .finite s fraction.toNat ((field.toNat : ℤ) - (1023 + 52) + 1)
          (by simpa [BitVec.toNat_pos, BitVec.pos_iff_ne_zero])
      else .finite s (1#1 ++ fraction).toNat ((field.toNat : ℤ) - (1023 + 52)) hhidden := by
    subst hs hfield hfraction
    rfl
  rw [← hfield] at hk
  have hfull : field ≠ -1#_ := by
    rintro rfl
    have hnat : (-1#11).toNat = 2047 := by decide
    rw [hnat] at hk
    omega
  rw [hunpack, if_neg hfull]
  by_cases hzero : field = 0#_
  · rw [if_pos hzero]
    by_cases hf : fraction = 0#_
    · exact .inl ⟨s, dif_pos hf⟩
    · have hnat : field.toNat = 0 := by rw [hzero]; rfl
      have hlt : fraction.toNat < 2 ^ 52 := fraction.isLt
      exact .inr ⟨s, _, _, _, dif_neg hf, by omega, by omega⟩
  · rw [if_neg hzero]
    have hlt : (1#1 ++ fraction).toNat < 2 ^ 53 := (1#1 ++ fraction).isLt
    exact .inr ⟨s, _, _, _, rfl, hlt, by omega⟩

end PocketCalculator.Rounding
