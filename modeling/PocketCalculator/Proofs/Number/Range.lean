import PocketCalculator.Number.Literal
import PocketCalculator.Proofs.Number.Places
import PocketCalculator.Proofs.Number.Rounding

/-! The range of a double. A literal that has no finite value is larger than every finite double. -/

namespace PocketCalculator
open Float.Model

namespace Rounding
open UnpackedFloat (Accuracy ExtendedMantissa accuracyOfFraction)
variable {k : ℤ} {s₁ s₂ : UnpackedFloat.Sign} {m₁ m₂ : ℕ} {e₁ e₂ : ℤ} {h₁ : 0 < m₁} {h₂ : 0 < m₂}

theorem mul_two_zpow_lt {m n : ℕ} {e j : ℤ} (hm : m < 2 ^ n) (he : e ≤ j) :
    (m : ℚ) * 2 ^ e < 2 ^ (n + j) := by
  have hcast : (m : ℚ) < (2 ^ n : ℕ) := Nat.cast_lt.2 hm
  have hexponent : (2 : ℚ) ^ e ≤ 2 ^ j := zpow_le_zpow_right₀ (by norm_num) he
  calc (m : ℚ) * 2 ^ e ≤ m * 2 ^ j := mul_le_mul_of_nonneg_left hexponent (Nat.cast_nonneg m)
    _ < (2 ^ n : ℕ) * 2 ^ j := mul_lt_mul_of_pos_right hcast (by positivity)
    _ = 2 ^ (n + j) := by rw [zpow_add₀ (by norm_num), zpow_natCast, Nat.cast_pow, Nat.cast_ofNat]

theorem halves_exact (m : ℕ) : halves (.ofMantissaAndAccuracy m .exact) = 2 * m := rfl

theorem below_mul (he : e₁ + e₂ < k) (hk : -1074 < k)
    (hlt : (m₁ * m₂ : ℚ) * 2 ^ (e₁ + e₂) < threshold k) :
    Below k (.mul Format.binary64 (.finite s₁ m₁ e₁ h₁) (.finite s₂ m₂ e₂ h₂)) := by
  refine below_roundWithAccuracy (s₁ * s₂) he hk (le_of_eq ?_) hlt
  rw [halves_exact]
  push_cast
  ring

theorem halves_accuracyOfFraction (n d : ℕ) :
    halves (.ofMantissaAndAccuracy (n / d) (accuracyOfFraction (n % d) d)) =
      2 * (n / d) + if n % d ≠ 0 ∧ d ≤ 2 * (n % d) then 1 else 0 := by
  rw [accuracyOfFraction]
  by_cases hz : n % d = 0
  · rw [if_pos hz, if_neg (fun h => h.1 hz)]
    rfl
  · rw [if_neg hz]
    cases hc : compare (2 * (n % d)) d with
    | lt =>
      have hlt := Nat.compare_eq_lt.1 hc
      rw [if_neg (fun h => absurd h.2 (by omega))]
      rfl
    | eq =>
      have heq := Nat.compare_eq_eq.1 hc
      rw [if_pos ⟨hz, by omega⟩]
      rfl
    | gt =>
      have hgt := Nat.compare_eq_gt.1 hc
      rw [if_pos ⟨hz, by omega⟩]
      rfl

theorem halves_accuracyOfFraction_mul_le (n d : ℕ) :
    halves (.ofMantissaAndAccuracy (n / d) (accuracyOfFraction (n % d) d)) * d ≤ 2 * n := by
  have hdiv : d * (n / d) + n % d = n := Nat.div_add_mod n d
  rw [halves_accuracyOfFraction]
  split
  · rename_i h
    calc (2 * (n / d) + 1) * d = 2 * (d * (n / d)) + d := by ring
      _ ≤ 2 * (d * (n / d)) + 2 * (n % d) := Nat.add_le_add_left h.2 _
      _ = 2 * n := by omega
  · calc (2 * (n / d) + 0) * d = 2 * (d * (n / d)) := by ring
      _ ≤ 2 * n := by omega

theorem below_div (he : e₁ - e₂ < k) (hk : -1074 < k)
    (hlt : (m₁ * 2 ^ e₁ : ℚ) / (m₂ * 2 ^ e₂) < threshold k) :
    Below k (.div Format.binary64 (.finite s₁ m₁ e₁ h₁) (.finite s₂ m₂ e₂ h₂)) := by
  obtain ⟨target, htarget⟩ : ∃ target, target = min (e₁ - e₂) (Format.binary64.targetExponent
      (totalExponent m₁ e₁ - totalExponent m₂ e₂)) := ⟨_, rfl⟩
  obtain ⟨n, hn⟩ : ∃ n, n = (e₁ - e₂ - target).toNat := ⟨_, rfl⟩
  have hdiv : UnpackedFloat.div Format.binary64 (.finite s₁ m₁ e₁ h₁) (.finite s₂ m₂ e₂ h₂) =
      .roundWithAccuracy Format.binary64 (s₁ / s₂) ((m₁ <<< n) / m₂) target
        (accuracyOfFraction ((m₁ <<< n) % m₂) m₂) := by
    rw [hn, htarget]
    rfl
  have hexponent : e₁ - e₂ = target + n := by omega
  rw [hdiv]
  refine below_roundWithAccuracy _ (by omega) hk ?_ hlt
  have hle : ((halves (.ofMantissaAndAccuracy ((m₁ <<< n) / m₂)
      (accuracyOfFraction ((m₁ <<< n) % m₂) m₂)) * m₂ : ℕ) : ℚ) ≤ (2 * (m₁ <<< n) : ℕ) :=
    Nat.cast_le.2 (halves_accuracyOfFraction_mul_le _ _)
  have hpos : (0 : ℚ) < m₂ := Nat.cast_pos.2 h₂
  calc (halves _ : ℚ) * 2 ^ target
      ≤ (2 * (m₁ <<< n) : ℕ) / m₂ * 2 ^ target := by
        rw [Nat.cast_mul] at hle
        exact mul_le_mul_of_nonneg_right ((le_div_iff₀ hpos).2 hle) (by positivity)
    _ = 2 * (m₁ / m₂ * 2 ^ (e₁ - e₂)) := by
        rw [hexponent, zpow_add₀ (by norm_num), zpow_natCast, Nat.shiftLeft_eq]
        push_cast
        ring
    _ = 2 * (m₁ * 2 ^ e₁ / (m₂ * 2 ^ e₂)) := by
        rw [zpow_sub₀ (by norm_num), mul_div_mul_comm]

variable {m : ℕ} {e : ℤ}

theorem threshold_lt_of_exponent (hm : m ≠ 0) (he : 2 ^ 11 < e) :
    threshold 972 < (m * 10 ^ e : ℚ) := by
  have hone : (1 : ℚ) ≤ m := Nat.one_le_cast.2 (Nat.pos_of_ne_zero hm)
  have hnonneg : 0 ≤ e := by omega
  calc threshold 972 < 2 ^ (972 + 52 : ℤ) := threshold_lt 972
    _ ≤ 2 ^ e := zpow_le_zpow_right₀ (by norm_num) (by omega)
    _ ≤ 10 ^ e := zpow_le_zpow_left₀ hnonneg (by norm_num) (by norm_num)
    _ ≤ m * 10 ^ e := le_mul_of_one_le_left (by positivity) hone

theorem below_ofScientific (hlt : (m * 10 ^ e : ℚ) < threshold 972) :
    Below 972 (.ofScientific Format.binary64 m e) := by
  show Below 972 (if hm : m = 0 then _ else if 2 ^ 11 < e then _
    else if e < -(2 ^ 11 + (m.log2 : ℤ)) then _ else if 0 ≤ e then _ else _)
  by_cases hm : m = 0
  · rw [dif_pos hm]
    trivial
  rw [dif_neg hm, if_neg fun hlarge => (hlt.trans (threshold_lt_of_exponent hm hlarge)).false]
  by_cases hsmall : e < -(2 ^ 11 + (m.log2 : ℤ))
  · rw [if_pos hsmall]
    trivial
  rw [if_neg hsmall]
  by_cases hz : 0 ≤ e
  · rw [if_pos hz]
    obtain ⟨n, rfl⟩ := Int.eq_ofNat_of_zero_le hz
    have hvalue : ((m <<< 53 : ℕ) * (10 ^ n : ℕ) : ℚ) * 2 ^ (-53 + 0 : ℤ) = m * 10 ^ (n : ℤ) := by
      rw [Nat.shiftLeft_eq, zpow_natCast]
      push_cast
      norm_num
      ring
    rw [← hvalue] at hlt
    exact below_mul (by decide) (by decide) hlt
  · rw [if_neg hz]
    obtain ⟨n, hn⟩ : ∃ n, n = (-e).toNat := ⟨_, rfl⟩
    have he : e = -(n : ℤ) := by omega
    have hvalue : (m * 2 ^ (0 : ℤ) : ℚ) / ((10 ^ n : ℕ) * 2 ^ (0 : ℤ)) = m * 10 ^ e := by
      rw [he, zpow_neg, zpow_natCast, zpow_zero, mul_one, mul_one, Nat.cast_pow, Nat.cast_ofNat,
        div_eq_mul_inv]
    rw [← hvalue, hn] at hlt
    exact below_div (by decide) (by decide) hlt

theorem below_normalize (s : UnpackedFloat.Sign) (hm : m < 2 ^ 53) :
    Below 2 (.normalize Format.binary64 m 0 s) := by
  by_cases hz : m = 0
  · rw [hz]
    trivial
  obtain ⟨n, hn⟩ : ∃ n, n = (0 - Format.binary64.targetExponent (totalExponent m 0)).toNat :=
    ⟨_, rfl⟩
  have hcompare : compare (m : ℤ) 0 = .gt := compare_gt_iff_gt.2 (by omega)
  have hround : UnpackedFloat.normalize Format.binary64 m 0 s =
      .roundWithAccuracy Format.binary64 .positive (m <<< n) (0 - n) .exact := by
    rw [UnpackedFloat.normalize, hcompare, hn]
    rfl
  rw [hround]
  have hlt : (m : ℚ) < threshold 2 := by
    have hvalue := mul_two_zpow_lt_threshold (e := 0) (k := 2) hm (by decide)
    rwa [zpow_zero, mul_one] at hvalue
  refine below_roundWithAccuracy _ (by omega) (by decide) (le_of_eq ?_) hlt
  rw [halves_exact, Nat.shiftLeft_eq, zero_sub, zpow_neg, zpow_natCast]
  push_cast
  rw [← mul_assoc, mul_inv_cancel_right₀ (by positivity)]

end Rounding

namespace Double

theorem unpack_cases {x : Float} (h : x.isFinite = true) :
    (∃ s, x.toModel.unpack = .zero s) ∨
      ∃ s m e h, x.toModel.unpack = .finite s m e h ∧ m < 2 ^ 53 ∧ e < 972 := by
  have hfield := (isFinite_unpack_iff x.toModel.toBits.toBitVec).1 h
  have hlt : (@UnpackedFloat.unpackExponent Format.binary64
      x.toModel.toBits.toBitVec).toNat < 2048 := BitVec.isLt _
  exact Rounding.unpack_cases x.toModel.toBits.toBitVec (by omega) (by decide) (by decide)

theorem isFinite_of_below {u : UnpackedFloat} (h : Rounding.Below 972 u) :
    (Float.ofModel (Float.Model.pack u)).isFinite = true := by
  have hfield := Rounding.unpackExponent_pack_lt (by decide) (by decide) h
  refine (isFinite_unpack_iff (UnpackedFloat.pack Format.binary64 u)).2 ?_
  omega

theorem isFinite_neg {x : Float} (h : x.isFinite = true) : (-x).isFinite = true := by
  refine isFinite_of_below (Rounding.below_neg ?_)
  rcases unpack_cases h with ⟨s, hx⟩ | ⟨s, m, e, hm, hx, -, he⟩
  · rw [hx]
    trivial
  · rw [hx]
    exact he

def isSmallPower : UnpackedFloat → Bool
  | .finite _ m e _ => decide (2 ^ 52 ≤ m ∧ m < 2 ^ 53 ∧ -52 ≤ e ∧ e ≤ 21)
  | _ => false

theorem exists_of_isSmallPower {u : UnpackedFloat} (h : isSmallPower u = true) :
    ∃ s m e hm, u = .finite s m e hm ∧ 2 ^ 52 ≤ m ∧ m < 2 ^ 53 ∧ -52 ≤ e ∧ e ≤ 21 := by
  cases u with
  | infinity s => cases h
  | notANumber => cases h
  | zero s => cases h
  | finite s m e hm => exact ⟨s, m, e, hm, rfl, of_decide_eq_true h⟩

theorem isSmallPower_exactlyRepresentablePowersOfTen :
    ∀ x ∈ Float.exactlyRepresentablePowersOfTen.toList, isSmallPower x.toModel.unpack = true := by
  decide +kernel

theorem toFloat_cases {m : ℕ} (hm : m < 2 ^ 53) :
    (∃ s, m.toUInt64.toFloat.toModel.unpack = .zero s) ∨
      ∃ s m' e h, m.toUInt64.toFloat.toModel.unpack = .finite s m' e h ∧ m' < 2 ^ 53 ∧ e < 2 := by
  have hnat : m.toUInt64.toNat = m := by
    show m % 2 ^ 64 = m
    omega
  have hbelow :
      Rounding.Below 2 (.normalize Format.binary64 (m.toUInt64.toNat : ℤ) 0 .positive) := by
    rw [hnat]
    exact Rounding.below_normalize _ hm
  exact Rounding.unpack_cases _
    (Rounding.unpackExponent_pack_lt (by decide) (by decide) hbelow) (by decide) (by decide)

theorem isFinite_mul_smallPower {m : ℕ} (hm : m < 2 ^ 53) {y : Float}
    (hy : isSmallPower y.toModel.unpack = true) : (m.toUInt64.toFloat * y).isFinite = true := by
  refine isFinite_of_below (u := .mul Format.binary64 m.toUInt64.toFloat.toModel.unpack
    y.toModel.unpack) ?_
  obtain ⟨s₂, m₂, e₂, h₂, hy, -, hm₂, -, he₂⟩ := exists_of_isSmallPower hy
  rcases toFloat_cases hm with ⟨s, hx⟩ | ⟨s₁, m₁, e₁, h₁, hx, hm₁, he₁⟩
  · rw [hx, hy]
    trivial
  · rw [hx, hy]
    refine Rounding.below_mul (by omega) (by decide) (lt_trans ?_ (Rounding.lt_threshold 972))
    have hproduct : m₁ * m₂ < 2 ^ 106 :=
      calc m₁ * m₂ < 2 ^ 53 * 2 ^ 53 := Nat.mul_lt_mul'' hm₁ hm₂
        _ = 2 ^ 106 := by norm_num
    have hlt := Rounding.mul_two_zpow_lt hproduct (e := e₁ + e₂) (j := 22) (by omega)
    rw [Nat.cast_mul] at hlt
    exact hlt.trans_le (zpow_le_zpow_right₀ (by norm_num) (by decide))

theorem isFinite_div_smallPower {m : ℕ} (hm : m < 2 ^ 53) {y : Float}
    (hy : isSmallPower y.toModel.unpack = true) : (m.toUInt64.toFloat / y).isFinite = true := by
  refine isFinite_of_below (u := .div Format.binary64 m.toUInt64.toFloat.toModel.unpack
    y.toModel.unpack) ?_
  obtain ⟨s₂, m₂, e₂, h₂, hy, hm₂, -, he₂, -⟩ := exists_of_isSmallPower hy
  rcases toFloat_cases hm with ⟨s, hx⟩ | ⟨s₁, m₁, e₁, h₁, hx, hm₁, he₁⟩
  · rw [hx, hy]
    trivial
  · rw [hx, hy]
    refine Rounding.below_div (by omega) (by decide) (lt_trans ?_ (Rounding.lt_threshold 972))
    have hone : (1 : ℚ) ≤ m₂ * 2 ^ e₂ :=
      calc (1 : ℚ) = (2 ^ 52 : ℕ) * 2 ^ (-52 : ℤ) := by norm_num
        _ ≤ m₂ * 2 ^ e₂ := mul_le_mul (Nat.cast_le.2 hm₂)
            (zpow_le_zpow_right₀ (by norm_num) he₂) (by positivity) (by positivity)
    have hlt := Rounding.mul_two_zpow_lt hm₁ (e := e₁) (j := 1) (by omega)
    calc (m₁ * 2 ^ e₁ : ℚ) / (m₂ * 2 ^ e₂) ≤ m₁ * 2 ^ e₁ := div_le_self (by positivity) hone
      _ < 2 ^ ((53 : ℕ) + 1 : ℤ) := hlt
      _ ≤ 2 ^ (972 + 51 : ℤ) := zpow_le_zpow_right₀ (by norm_num) (by decide)

theorem isFinite_ofScientific {m e : ℕ} {negative : Bool}
    (h : (m : ℚ) * 10 ^ (if negative then -(e : ℤ) else e) < Rounding.threshold 972) :
    (Float.ofScientific m negative e).isFinite = true := by
  rw [Float.ofScientific]
  by_cases hshort : m < 2 ^ 53 ∧ e ≤ 22
  · have hsize : e < Float.exactlyRepresentablePowersOfTen.size := Nat.lt_succ_of_le hshort.2
    have hpower := isSmallPower_exactlyRepresentablePowersOfTen _
      (Array.getElem_mem_toList hsize)
    rw [dif_pos hshort]
    cases negative with
    | true => exact isFinite_div_smallPower hshort.1 hpower
    | false => exact isFinite_mul_smallPower hshort.1 hpower
  · rw [dif_neg hshort]
    refine isFinite_of_below (Rounding.below_ofScientific ?_)
    cases negative with
    | true =>
      have hexponent : Int.negOfNat e = -(e : ℤ) := Int.negOfNat_eq
      rw [if_pos rfl, hexponent]
      exact h
    | false => exact h

end Double

namespace Decimal

def magnitude (d : Decimal) : ℚ := d.significand * 10 ^ d.exponent

theorem threshold_le_magnitude {d : Decimal} (h : d.toFloat.isFinite = false) :
    Rounding.threshold 972 ≤ d.magnitude := by
  by_contra hlt
  have hexponent : (if decide (d.exponent < 0) = true then -(d.exponent.natAbs : ℤ)
      else d.exponent.natAbs) = d.exponent := by
    by_cases hn : d.exponent < 0
    · rw [if_pos (decide_eq_true hn)]
      omega
    · rw [if_neg (by simpa using hn)]
      omega
  have hmagnitude : (Float.ofScientific d.significand (d.exponent < 0)
      d.exponent.natAbs).isFinite = true := by
    refine Double.isFinite_ofScientific ?_
    rw [hexponent]
    exact not_le.1 hlt
  have hfinite : d.toFloat.isFinite = true := by
    unfold toFloat
    cases d.negative with
    | true => exact Double.isFinite_neg hmagnitude
    | false => exact hmagnitude
  rw [hfinite] at h
  cases h

end Decimal

namespace Double

theorem ofBits_eq_finite {bits m : ℕ} {negative : Bool} {e : ℤ}
    (h : ofBits bits = finite negative m e) : m < 2 ^ 53 ∧ e < 972 := by
  have hfraction : bits % 0x10000000000000 < 0x10000000000000 := Nat.mod_lt _ (by decide)
  have hfield : bits / 0x10000000000000 % 0x800 < 0x800 := Nat.mod_lt _ (by decide)
  simp only [ofBits] at h
  split at h
  · split at h <;> cases h
  · split at h
    · cases h
      exact ⟨by omega, by decide⟩
    · cases h
      exact ⟨by omega, by omega⟩

theorem value?_ofBits_lt {bits : ℕ} {v : ℚ} (h : (ofBits bits).value? = some v) :
    v < Rounding.threshold 972 := by
  cases hd : ofBits bits with
  | nan => rw [hd] at h; cases h
  | infinity negative => rw [hd] at h; cases h
  | finite negative m e =>
    rw [hd] at h
    obtain ⟨hm, he⟩ := ofBits_eq_finite hd
    have hpos : (0 : ℚ) ≤ m * 2 ^ e := by positivity
    have hle : v ≤ m * 2 ^ e := by
      obtain rfl : _ = v := Option.some.inj h
      cases negative with
      | true =>
        rw [if_pos rfl]
        linarith
      | false => exact (one_mul _).le
    exact hle.trans_lt (Rounding.mul_two_zpow_lt_threshold hm he)

end Double

/-- A literal without a finite value is larger than every finite double. -/
theorem Decimal.value?_lt_magnitude {d : Decimal} (h : d.toFloat.isFinite = false) {x : Float}
    {v : ℚ} (hv : (Double.ofFloat x).value? = some v) : v < d.magnitude :=
  (Double.value?_ofBits_lt hv).trans_le (threshold_le_magnitude h)

end PocketCalculator
