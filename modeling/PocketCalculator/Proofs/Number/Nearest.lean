import PocketCalculator.Json.RoundTrip
import PocketCalculator.Proofs.Number.Literal
import Mathlib.Algebra.Ring.Int.Parity
import Mathlib.Data.Nat.Cast.Field

/-! The text of a result read back. It denotes the multiple of a power of ten that is nearest to the
exact value of the double, and nothing is written that could be left out. -/

namespace PocketCalculator

/-- Of all `k / 10 ^ places` that with `k = n` is nearest to `x`, and of two it is the even one. -/
def IsNearest (places : ℕ) (x : ℚ) (n : ℤ) : Prop :=
  ∀ k : ℤ, k ≠ n → |x - n / 10 ^ places| < |x - k / 10 ^ places| ∨
    |x - n / 10 ^ places| = |x - k / 10 ^ places| ∧ Even n

theorem abs_sub_div_pow (places : ℕ) (x : ℚ) (k : ℤ) :
    |x - k / 10 ^ places| = |x * 10 ^ places - k| / 10 ^ places := by
  have hunit : (0 : ℚ) < 10 ^ places := by positivity
  have hsub : x - k / 10 ^ places = (x * 10 ^ places - k) / 10 ^ places := by
    rw [sub_div, mul_div_cancel_right₀ _ hunit.ne']
  rw [hsub, abs_div, abs_of_pos hunit]

theorem abs_le_half {z : ℚ} (hup : |z| ≤ |z - 1|) (hdown : |z| ≤ |z + 1|) : |z| ≤ 1 / 2 := by
  have hupper := sq_le_sq.2 hup
  have hlower := sq_le_sq.2 hdown
  exact abs_le.2 ⟨by linarith [add_sq z 1], by linarith [sub_sq z 1]⟩

section
variable {places : ℕ} {x : ℚ} {n : ℤ}

theorem isNearest_iff_scaled :
    IsNearest places x n ↔ ∀ k : ℤ, k ≠ n →
      |x * 10 ^ places - n| < |x * 10 ^ places - k| ∨
        |x * 10 ^ places - n| = |x * 10 ^ places - k| ∧ Even n := by
  have hunit : (0 : ℚ) < 10 ^ places := by positivity
  simp only [IsNearest, abs_sub_div_pow, div_lt_div_iff_of_pos_right hunit,
    div_left_inj' hunit.ne']

theorem IsNearest.half (h : IsNearest places x n) :
    |x * 10 ^ places - n| ≤ 1 / 2 ∧ (|x * 10 ^ places - n| = 1 / 2 → Even n) := by
  rw [isNearest_iff_scaled] at h
  have hup := h (n + 1) (by omega)
  have hdown := h (n - 1) (by omega)
  rw [Int.cast_add, Int.cast_one, ← sub_sub] at hup
  rw [Int.cast_sub, Int.cast_one, ← sub_add] at hdown
  generalize x * 10 ^ places - n = z at hup hdown ⊢
  refine ⟨abs_le_half (hup.elim le_of_lt fun he => he.1.le)
    (hdown.elim le_of_lt fun he => he.1.le), fun hhalf => ?_⟩
  -- The neighbour on the other side is as far off.
  rcases (abs_eq (by norm_num)).1 hhalf with rfl | rfl
  · rcases hup with hlt | heven
    · norm_num [abs_of_pos, abs_of_neg] at hlt
    · exact heven.2
  · rcases hdown with hlt | heven
    · norm_num [abs_of_pos, abs_of_neg] at hlt
    · exact heven.2

theorem isNearest_of_half (h : |x * 10 ^ places - n| ≤ 1 / 2)
    (heven : |x * 10 ^ places - n| = 1 / 2 → Even n) : IsNearest places x n := by
  refine isNearest_iff_scaled.2 fun k hk => ?_
  have hapart : (1 : ℚ) ≤ |(k : ℚ) - n| := by
    rw [← Int.cast_sub, ← Int.cast_abs, ← Int.cast_one, Int.cast_le]
    exact Int.one_le_abs (sub_ne_zero.2 hk)
  have htriangle : |(k : ℚ) - n| ≤ |x * 10 ^ places - n| + |x * 10 ^ places - k| := by
    have habs := abs_sub (x * 10 ^ places - n) (x * 10 ^ places - k)
    rwa [sub_sub_sub_cancel_left] at habs
  have hle : |x * 10 ^ places - n| ≤ |x * 10 ^ places - k| := by linarith
  rcases hle.lt_or_eq with hlt | heq
  · exact .inl hlt
  · exact .inr ⟨heq, heven (by linarith)⟩

theorem isNearest_of_eq (h : x * 10 ^ places = n) : IsNearest places x n := by
  have hoff : |x * 10 ^ places - n| = 0 := by rw [h, sub_self, abs_zero]
  refine isNearest_of_half ?_ fun hhalf => ?_
  · rw [hoff]
    norm_num
  · rw [hoff] at hhalf
    norm_num at hhalf

theorem IsNearest.neg (h : IsNearest places x n) : IsNearest places (-x) (-n) := by
  have hopposite (j : ℤ) : |-x - (-j : ℤ) / 10 ^ places| = |x - j / 10 ^ places| := by
    rw [Int.cast_neg, neg_div, ← neg_sub', abs_neg]
  intro k hk
  have hother := hopposite (-k)
  rw [neg_neg] at hother
  rw [hopposite, hother, even_neg]
  exact h (-k) fun hn => hk (by rw [← hn, neg_neg])

theorem IsNearest.signed (negative : Bool) (h : IsNearest places x n) :
    IsNearest places ((if negative then -1 else 1) * x) ((if negative then -1 else 1) * n) := by
  cases negative with
  | true =>
    rw [if_pos rfl, if_pos rfl, neg_one_mul, neg_one_mul]
    exact h.neg
  | false =>
    rw [if_neg Bool.false_ne_true, if_neg Bool.false_ne_true, one_mul, one_mul]
    exact h

end

theorem abs_div_sub (num k : ℕ) {den : ℕ} (hden : 0 < den) :
    |(num / den : ℚ) - k| = (num - k * den : ℤ).natAbs / den := by
  have hpos : (0 : ℚ) < den := Nat.cast_pos.2 hden
  have hsub : (num / den : ℚ) - k = (num - k * den : ℤ) / den := by
    push_cast
    rw [sub_div, mul_div_cancel_right₀ _ hpos.ne']
  rw [hsub, abs_div, abs_of_pos hpos, Nat.cast_natAbs, Int.cast_abs]

theorem natAbs_sub_roundDiv (num : ℕ) {den : ℕ} (hden : 0 < den) :
    2 * (num - roundDiv num den * den : ℤ).natAbs ≤ den ∧
      (2 * (num - roundDiv num den * den : ℤ).natAbs = den → Even (roundDiv num den)) := by
  obtain ⟨q, hq⟩ : ∃ q, q = num / den := ⟨_, rfl⟩
  obtain ⟨rest, hrest⟩ : ∃ rest, rest = num % den := ⟨_, rfl⟩
  have hlt : rest < den := hrest ▸ Nat.mod_lt num hden
  have hoff (up : ℕ) : (num - (q + up : ℕ) * den : ℤ) = rest - up * den := by
    have hnum : (q * den + rest : ℤ) = num := by
      rw [hq, hrest]
      exact_mod_cast Nat.div_add_mod' num den
    rw [← hnum, Nat.cast_add, add_mul, add_sub_add_left_eq_sub]
  -- In a tie the quotient goes up just if it is odd, and is off by half the denominator either way.
  cases hc : compare (2 * rest) den with
  | lt =>
    have hround : roundDiv num den = q + 0 := by simp only [roundDiv, ← hq, ← hrest, hc, add_zero]
    have hless := Nat.compare_eq_lt.1 hc
    rw [hround, hoff]
    exact ⟨by omega, fun h => by omega⟩
  | eq =>
    have hround : roundDiv num den = q + q % 2 := by simp only [roundDiv, ← hq, ← hrest, hc]
    have hequal := Nat.compare_eq_eq.1 hc
    rw [hround, hoff]
    refine ⟨?_, fun _ => Nat.even_iff.2 (by omega)⟩
    rcases Nat.mod_two_eq_zero_or_one q with h | h <;> rw [h] <;> omega
  | gt =>
    have hround : roundDiv num den = q + 1 := by simp only [roundDiv, ← hq, ← hrest, hc]
    have hmore := Nat.compare_eq_gt.1 hc
    rw [hround, hoff]
    exact ⟨by omega, fun h => by omega⟩

theorem abs_div_sub_roundDiv (num : ℕ) {den : ℕ} (hden : 0 < den) :
    |(num / den : ℚ) - roundDiv num den| ≤ 1 / 2 ∧
      (|(num / den : ℚ) - roundDiv num den| = 1 / 2 → Even (roundDiv num den)) := by
  obtain ⟨hle, heven⟩ := natAbs_sub_roundDiv num hden
  have hpos : (0 : ℚ) < den := Nat.cast_pos.2 hden
  rw [abs_div_sub num _ hden, div_le_div_iff₀ hpos two_pos, div_eq_div_iff hpos.ne' two_ne_zero,
    one_mul, mul_comm]
  exact ⟨by exact_mod_cast hle, fun h => heven (by exact_mod_cast h)⟩

theorem isNearest_roundDiv (num : ℕ) {den : ℕ} (hden : 0 < den) (places : ℕ) :
    IsNearest places (num / den) (roundDiv (num * pow10 places) den) := by
  obtain ⟨hle, heven⟩ := abs_div_sub_roundDiv (num * pow10 places) hden
  have hscale : ((num * pow10 places : ℕ) / den : ℚ) = num / den * 10 ^ places := by
    have hpow : (pow10 places : ℚ) = 10 ^ places := by
      show ((10 ^ places : ℕ) : ℚ) = 10 ^ places
      rw [Nat.cast_pow, Nat.cast_ofNat]
    rw [Nat.cast_mul, hpow, mul_div_right_comm]
  rw [hscale] at hle heven
  refine isNearest_of_half ?_ fun h => ?_
  · rwa [Int.cast_natCast]
  · rw [Int.cast_natCast] at h
    exact (Int.even_coe_nat _).2 (heven h)

namespace Numeral

def Trimmed (cs : List Char) : Prop :=
  ∀ sign c rest, cs = sign ++ '0' :: c :: rest → sign = [] ∨ sign = ['-'] → c.isDigit = false

theorem length_padded_of_head? {n places : ℕ} (h : (padded n places).head? = some '0') :
    (padded n places).length = places + 1 := by
  rw [length_padded, max_eq_left]
  by_contra hlong
  have hpadded : padded n places = Nat.toDigits 10 n := by
    rw [padded, Nat.sub_eq_zero_of_le (by omega), List.replicate_zero, List.nil_append]
  rw [hpadded] at h
  rcases Nat.eq_zero_or_pos n with rfl | hpos
  · rw [Nat.toDigits_zero] at hlong
    exact hlong (Nat.le_add_left 1 places)
  · exact Json.head?_toDigits_ne_zero hpos h

theorem trimmed_placesText (negative : Bool) (n places : ℕ) :
    Trimmed (signText negative ++ placesText n places).toList := by
  obtain ⟨whole, point, fraction, htext, hpadded, ⟨hne, hdigit⟩, -, hlen, hpoint⟩ :=
    exists_toList_placesText n places
  obtain ⟨d, ds, rfl⟩ := List.exists_cons_of_ne_nil hne
  have hd : d.isDigit = true := hdigit d List.mem_cons_self
  intro sign c rest heq hsign
  rw [String.toList_append, htext] at heq
  have hdigits : d :: (ds ++ (point ++ fraction)) = '0' :: c :: rest := by
    rcases signText_cases negative with hs | hs <;> rw [hs] at heq <;>
      rcases hsign with rfl | rfl
    · exact heq
    · obtain ⟨rfl, -⟩ := List.cons.inj heq
      exact absurd hd (by decide)
    · exact absurd (List.cons.inj heq).1 (by decide)
    · exact (List.cons.inj heq).2
  obtain ⟨rfl, htail⟩ := List.cons.inj hdigits
  -- The zero is in front of the places, and there it is the only digit.
  have hshort : (padded n places).length = places + 1 :=
    length_padded_of_head? (by rw [← hpadded]; rfl)
  rw [← hpadded, List.length_append, List.length_cons, hlen] at hshort
  have hds : ds = [] := List.eq_nil_of_length_eq_zero (by omega)
  rw [hds, List.nil_append] at htail
  rcases hpoint with ⟨-, rfl, rfl⟩ | ⟨-, rfl⟩
  · cases htail
  · obtain ⟨rfl, -⟩ := List.cons.inj htail
    decide

end Numeral

namespace Decimal

def value (d : Decimal) : ℚ := (if d.negative then -1 else 1) * d.magnitude

theorem ofString?_placesText (negative : Bool) (n places : ℕ) :
    ofString? (signText negative ++ placesText n places) = some ⟨negative, n, -places⟩ := by
  obtain ⟨whole, point, fraction, htext, hpadded, hwhole, hfraction, hlen, hpoint⟩ :=
    Numeral.exists_toList_placesText n places
  have hmiddle : point = [] ∧ fraction = [] ∨ point = ['.'] := hpoint.imp And.right And.right
  have hsign : splitSign (signText negative ++ placesText n places).toList =
      (negative, whole ++ (point ++ fraction)) := by
    rw [String.toList_append, htext]
    cases negative with
    | true => rfl
    | false =>
      refine splitSign_of_begun ?_
      rcases hmiddle with ⟨rfl, rfl⟩ | rfl
      · rw [List.append_nil, List.append_nil]
        exact .inl hwhole
      · exact .inr ⟨whole, fraction, rfl, hwhole, hfraction⟩
  have hvalue : ofDigits (whole ++ fraction) = n := by
    rw [hpadded]
    exact Numeral.ofDigitChars_padded n places
  rw [ofString?, ofChars?_eq hsign hwhole hfraction hmiddle, hvalue, hlen]

theorem value_places (negative : Bool) (n places : ℕ) :
    (⟨negative, n, -places⟩ : Decimal).value =
      (if negative then -1 else 1) * (n / 10 ^ places) := by
  rw [value, magnitude, zpow_neg, zpow_natCast, ← div_eq_mul_inv]

end Decimal

namespace Double
variable {negative : Bool} {significand : ℕ} {exponent : ℤ}

theorem magnitude_of_isIntegral
    (h : (finite negative significand exponent).IsIntegral) :
    (significand * 2 ^ exponent : ℚ) =
      (numerator significand exponent / denominator exponent : ℕ) := by
  have hdvd := Nat.dvd_of_mod_eq_zero (isIntegral_finite_iff.1 h)
  rw [← numerator_div_denominator, Nat.cast_div_charZero hdvd]

theorem exists_places (negative : Bool) (significand : ℕ) (exponent : ℤ) (digits : ℕ) :
    ∃ n places k : ℕ, (finite negative significand exponent).places digits =
        signText (negative && decide (significand ≠ 0)) ++ placesText n places ∧
      (n / 10 ^ places : ℚ) = k / 10 ^ digits ∧
      IsNearest digits (significand * 2 ^ exponent) k ∧
      (significand = 0 → n = 0) ∧
      ((finite negative significand exponent).IsIntegral →
        (significand * 2 ^ exponent : ℚ) = n / 10 ^ places) := by
  by_cases hi : (finite negative significand exponent).IsIntegral
  · obtain ⟨n, hn⟩ : ∃ n, n = numerator significand exponent / denominator exponent := ⟨_, rfl⟩
    have hmagnitude : (significand * 2 ^ exponent : ℚ) = n := hn ▸ magnitude_of_isIntegral hi
    refine ⟨n, 0, n * 10 ^ digits, hn ▸ places_of_isIntegral hi digits, ?_, isNearest_of_eq ?_,
      fun hz => ?_, fun _ => ?_⟩
    · rw [pow_zero, div_one, Nat.cast_mul, Nat.cast_pow, Nat.cast_ofNat,
        mul_div_cancel_right₀ _ (by positivity)]
    · rw [hmagnitude]
      push_cast
      rfl
    · rw [hz, Nat.cast_zero, zero_mul] at hmagnitude
      exact Nat.cast_eq_zero.1 hmagnitude.symm
    · rw [pow_zero, div_one, hmagnitude]
  · obtain ⟨hz, htext⟩ := places_of_not_isIntegral hi digits
    obtain ⟨n, hn⟩ : ∃ n, n = roundDiv (numerator significand exponent * pow10 digits)
      (denominator exponent) := ⟨_, rfl⟩
    refine ⟨n, digits, n, ?_, rfl, ?_, fun h => absurd h hz, fun h => absurd h hi⟩
    · rw [decide_eq_true hz, Bool.and_true, hn]
      exact htext
    · rw [← numerator_div_denominator, hn]
      exact isNearest_roundDiv _ (denominator_pos exponent) digits

theorem sign_mul_eq {n : ℕ} (h : significand = 0 → n = 0) :
    (if (negative && decide (significand ≠ 0)) then -1 else 1 : ℚ) * n =
      (if negative then -1 else 1) * n := by
  by_cases hz : significand = 0
  · rw [h hz, Nat.cast_zero, mul_zero, mul_zero]
  · rw [decide_eq_true hz, Bool.and_true]

theorem exists_nearest_places {d : Double} (h : d.IsFinite) (digits : ℕ) :
    ∃ (v : ℚ) (n : ℤ) (written : Decimal), d.value? = some v ∧
      Decimal.ofString? (d.places digits) = some written ∧
      written.value = n / 10 ^ digits ∧ IsNearest digits v n ∧
      Numeral.Trimmed (d.places digits).toList ∧ (d.IsIntegral → written.value = v) := by
  cases d with
  | nan => cases h
  | infinity negative => cases h
  | finite negative significand exponent =>
    obtain ⟨n, places, k, htext, hscale, hnearest, hzero, hexact⟩ :=
      exists_places negative significand exponent digits
    have hvalue : (⟨negative && decide (significand ≠ 0), n, -places⟩ : Decimal).value =
        (if negative then -1 else 1) * (n / 10 ^ places) := by
      rw [Decimal.value_places, ← mul_div_assoc, sign_mul_eq hzero, mul_div_assoc]
    refine ⟨_, (if negative then -1 else 1) * k, _, rfl, htext ▸ Decimal.ofString?_placesText _ n _,
      ?_, hnearest.signed negative, htext ▸ Numeral.trimmed_placesText _ n _, fun hi => ?_⟩
    · rw [hvalue, hscale]
      push_cast
      rw [mul_div_assoc]
    · rw [hvalue, hexact hi]

end Double

/-- The text of a finite result reads back as the multiple of `1 / 10 ^ digits` nearest to its exact
value. -/
theorem resultText_nearest {x : Float} (h : x.isFinite = true) (digits : ℕ) :
    ∃ (v : ℚ) (n : ℤ) (written : Decimal), (Double.ofFloat x).value? = some v ∧
      Decimal.ofString? (resultText x digits) = some written ∧
      written.value = n / 10 ^ digits ∧ IsNearest digits v n ∧
      Numeral.Trimmed (resultText x digits).toList ∧
      ((Double.ofFloat x).IsIntegral →
        written.value = v ∧ Numeral.HasPlaces 0 (resultText x digits).toList) ∧
      (¬ (Double.ofFloat x).IsIntegral →
        Numeral.HasPlaces digits (resultText x digits).toList) := by
  obtain ⟨v, n, written, hv, hread, hvalue, hnearest, htrimmed, hexact⟩ :=
    Double.exists_nearest_places ((Double.isFinite_ofFloat_iff x).2 h) digits
  obtain ⟨hwhole, hplaces⟩ := hasPlaces_resultText h digits
  exact ⟨v, n, written, hv, hread, hvalue, hnearest, htrimmed,
    fun hi => ⟨hexact hi, hwhole hi⟩, hplaces⟩

theorem resultText_nearest_halfway :
    Float.isFinite (-0.125) = true ∧ (Double.ofFloat (-0.125)).value? = some (-1 / 8) ∧
      resultText (-0.125) 2 = "-0.12" ∧ Decimal.ofString? "-0.12" = some ⟨true, 12, -2⟩ ∧
      IsNearest 2 (-1 / 8) (-12) := by
  have hparts : Double.ofFloat (-0.125) = .finite true 4503599627370496 (-55) := by decide +kernel
  have heighth : (Double.ofFloat (-0.125)).value? = some (-1 / 8) := by
    rw [hparts, Double.value?]
    norm_num
  have hfinite : Float.isFinite (-0.125) = true := by decide +kernel
  have htext : resultText (-0.125) 2 = "-0.12" := by decide +kernel
  have htwelve : Decimal.ofString? "-0.12" = some ⟨true, 12, -2⟩ := by decide +kernel
  obtain ⟨v, n, written, hv, hread, hvalue, hnearest, -⟩ := resultText_nearest hfinite 2
  obtain rfl : (-1 / 8 : ℚ) = v := Option.some.inj (heighth.symm.trans hv)
  rw [htext, htwelve] at hread
  obtain rfl : _ = written := Option.some.inj hread
  have hn : n = -12 := by
    have hmul := (Decimal.value_places true 12 2).symm.trans hvalue
    norm_num at hmul
    have hcast : (n : ℚ) = (-12 : ℤ) := by
      push_cast
      linarith
    exact Int.cast_injective hcast
  exact ⟨hfinite, heighth, htext, htwelve, hn ▸ hnearest⟩

end PocketCalculator
