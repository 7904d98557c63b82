import PocketCalculator.Number.Places
import PocketCalculator.Proofs.Entry.Numeral
import Mathlib.Algebra.Order.Field.Rat
import Mathlib.Data.Rat.Cast.Defs

/-! The exact number that a finite double stands for, and the spelling of its text with a set number
of places. -/

namespace PocketCalculator

theorem roundDiv_of_mod_eq_zero {num den : ℕ} (hden : 0 < den) (h : num % den = 0) :
    roundDiv num den = num / den := by
  have hc : compare (2 * (num % den)) den = .lt := Nat.compare_eq_lt.2 (by omega)
  simp only [roundDiv, hc]

namespace Numeral

/-- Digits behind an optional sign, and after them a point and so many digits where there are
places. -/
def HasPlaces (places : Nat) (cs : List Char) : Prop :=
  ∃ sign whole fraction, cs = sign ++ whole ++ fraction ∧ (sign = [] ∨ sign = ['-']) ∧
    AllDigits whole ∧
    if places = 0 then fraction = []
    else ∃ ds, fraction = '.' :: ds ∧ ds.length = places ∧ ∀ c ∈ ds, c.isDigit = true

def padded (n places : Nat) : List Char :=
  List.replicate (places + 1 - (Nat.toDigits 10 n).length) '0' ++ Nat.toDigits 10 n

theorem length_padded (n places : Nat) :
    (padded n places).length = max (places + 1) (Nat.toDigits 10 n).length := by
  rw [padded, List.length_append, List.length_replicate]
  omega

theorem isDigit_of_mem_padded {n places : Nat} : ∀ c ∈ padded n places, c.isDigit = true := by
  intro c hc
  rcases List.mem_append.1 hc with hc | hc
  · rw [List.eq_of_mem_replicate hc]
    decide
  · exact Nat.isDigit_of_mem_toDigits (by decide) (by decide) hc

theorem ofDigitChars_padded (n places : Nat) : Nat.ofDigitChars 10 (padded n places) 0 = n := by
  rw [padded, Nat.ofDigitChars_append, Nat.ofDigitChars_replicate_zero, Nat.mul_zero,
    Nat.ofDigitChars_ten_toDigits]

theorem exists_toList_placesText (n places : Nat) :
    ∃ whole point fraction, (placesText n places).toList = whole ++ (point ++ fraction) ∧
      whole ++ fraction = padded n places ∧ AllDigits whole ∧
      (∀ c ∈ fraction, c.isDigit = true) ∧ fraction.length = places ∧
      (places = 0 ∧ point = [] ∧ fraction = [] ∨ places ≠ 0 ∧ point = ['.']) := by
  obtain ⟨size, hsize⟩ : ∃ size, size = (padded n places).length - places := ⟨_, rfl⟩
  have hlen : (padded n places).length = size + places ∧ 0 < size := by
    rw [length_padded] at hsize ⊢
    omega
  obtain ⟨whole, hw⟩ : ∃ whole, whole = (padded n places).take size := ⟨_, rfl⟩
  obtain ⟨fraction, hf⟩ : ∃ fraction, fraction = (padded n places).drop size := ⟨_, rfl⟩
  have hpadded : whole ++ fraction = padded n places := by
    rw [hw, hf, List.take_append_drop]
  have htext : (placesText n places).toList =
      if places = 0 then padded n places else whole ++ '.' :: fraction := by
    rw [placesText, String.toList_ofList, hw, hf, hsize]
    rfl
  have hwhole : whole.length = size := by
    rw [hw, List.length_take]
    omega
  have hfraction : fraction.length = places := by
    rw [hf, List.length_drop]
    omega
  have hdigit : ∀ c ∈ whole ++ fraction, c.isDigit = true := hpadded ▸ isDigit_of_mem_padded
  have hallDigits : AllDigits whole :=
    ⟨List.ne_nil_of_length_pos (by omega), fun c hc => hdigit c (List.mem_append_left _ hc)⟩
  refine ⟨whole, if places = 0 then [] else ['.'], fraction, ?_, hpadded, hallDigits,
    fun c hc => hdigit c (List.mem_append_right _ hc), hfraction, ?_⟩
  · rw [htext]
    by_cases hz : places = 0
    · rw [if_pos hz, if_pos hz, List.nil_append, hpadded]
    · rw [if_neg hz, if_neg hz]
      rfl
  · by_cases hz : places = 0
    · exact .inl ⟨hz, if_pos hz, List.eq_nil_of_length_eq_zero (hfraction.trans hz)⟩
    · exact .inr ⟨hz, if_neg hz⟩

theorem signText_cases (negative : Bool) :
    (signText negative).toList = [] ∨ (signText negative).toList = ['-'] := by
  cases negative <;> decide

theorem hasPlaces_placesText (negative : Bool) (n places : Nat) :
    HasPlaces places (signText negative ++ placesText n places).toList := by
  obtain ⟨whole, point, fraction, htext, -, hwhole, hfraction, hlen, hpoint⟩ :=
    exists_toList_placesText n places
  refine ⟨(signText negative).toList, whole, point ++ fraction, ?_, signText_cases negative,
    hwhole, ?_⟩
  · rw [String.toList_append, htext, List.append_assoc]
  · rcases hpoint with ⟨hz, rfl, rfl⟩ | ⟨hz, rfl⟩
    · rw [if_pos hz, List.append_nil]
    · rw [if_neg hz]
      exact ⟨fraction, rfl, hlen, hfraction⟩

end Numeral

namespace Double
variable {negative : Bool} {significand : Nat} {exponent : Int}

def value? : Double → Option ℚ
  | finite negative significand exponent =>
    some ((if negative then -1 else 1) * (significand * 2 ^ exponent))
  | _ => none

def IsIntegral (d : Double) : Prop := ∃ k : ℤ, d.value? = some (k : ℚ)

theorem numerator_div_denominator (significand : Nat) (exponent : Int) :
    (numerator significand exponent / denominator exponent : ℚ) = significand * 2 ^ exponent := by
  have hpow (n : Nat) : (pow2 n : ℚ) = 2 ^ n := by
    show ((2 ^ n : Nat) : ℚ) = 2 ^ n
    rw [Nat.cast_pow, Nat.cast_ofNat]
  have hexponent : (exponent.toNat : ℤ) - ((-exponent).toNat : ℤ) = exponent := by omega
  calc (numerator significand exponent / denominator exponent : ℚ)
      = significand * (2 ^ exponent.toNat / 2 ^ (-exponent).toNat) := by
        rw [numerator, denominator, Nat.cast_mul, hpow, hpow, mul_div_assoc]
    _ = significand * 2 ^ ((exponent.toNat : ℤ) - ((-exponent).toNat : ℤ)) := by
        rw [zpow_sub₀ two_ne_zero, zpow_natCast, zpow_natCast]
    _ = significand * 2 ^ exponent := by rw [hexponent]

theorem isIntegral_finite_iff :
    (finite negative significand exponent).IsIntegral ↔
      numerator significand exponent % denominator exponent = 0 := by
  have hpos : (denominator exponent : ℚ) ≠ 0 :=
    Nat.cast_ne_zero.2 (Nat.ne_of_gt (denominator_pos exponent))
  -- The sign makes no difference.
  have hsign (x : ℚ) :
      (∃ k : ℤ, (if negative then -1 else 1) * x = k) ↔ ∃ k : ℤ, x = k := by
    cases negative with
    | false => simp
    | true =>
      rw [if_pos rfl]
      constructor
      · rintro ⟨k, hk⟩
        exact ⟨-k, by rw [Int.cast_neg, ← hk, neg_one_mul, neg_neg]⟩
      · rintro ⟨k, hk⟩
        exact ⟨-k, by rw [Int.cast_neg, ← hk, neg_one_mul]⟩
  simp only [IsIntegral, value?, Option.some.injEq]
  rw [hsign, ← numerator_div_denominator, ← Nat.dvd_iff_mod_eq_zero, ← Int.natCast_dvd_natCast]
  refine exists_congr fun k => ?_
  rw [div_eq_iff hpos, mul_comm]
  norm_cast

theorem places_of_isIntegral
    (h : (finite negative significand exponent).IsIntegral) (digits : Nat) :
    (finite negative significand exponent).places digits =
      signText (negative && decide (significand ≠ 0)) ++
        placesText (numerator significand exponent / denominator exponent) 0 := by
  have hmod := isIntegral_finite_iff.1 h
  by_cases hz : significand = 0
  · have hnum : numerator significand exponent = 0 := by rw [numerator, hz, Nat.zero_mul]
    rw [places, if_pos hz, hnum, Nat.zero_div, hz, decide_eq_false (not_not.2 rfl), Bool.and_false]
    rfl
  · rw [places, if_neg hz, decide_eq_true hz, Bool.and_true]
    simp only [if_pos hmod]
    rw [show numerator significand exponent * pow10 0 = numerator significand exponent from
      Nat.mul_one _, roundDiv_of_mod_eq_zero (denominator_pos exponent) hmod]

theorem places_of_not_isIntegral
    (h : ¬ (finite negative significand exponent).IsIntegral) (digits : Nat) :
    significand ≠ 0 ∧ (finite negative significand exponent).places digits =
      signText negative ++ placesText
        (roundDiv (numerator significand exponent * pow10 digits) (denominator exponent))
        digits := by
  have hmod := mt isIntegral_finite_iff.2 h
  have hz : significand ≠ 0 := by
    rintro rfl
    rw [numerator, Nat.zero_mul, Nat.zero_mod] at hmod
    exact hmod rfl
  refine ⟨hz, ?_⟩
  rw [places, if_neg hz]
  simp only [if_neg hmod]

theorem hasPlaces_places {d : Double} (h : d.IsFinite) (digits : Nat) :
    (d.IsIntegral → Numeral.HasPlaces 0 (d.places digits).toList) ∧
      (¬ d.IsIntegral → Numeral.HasPlaces digits (d.places digits).toList) := by
  cases d with
  | nan => cases h
  | infinity negative => cases h
  | finite negative significand exponent =>
    refine ⟨fun hn => ?_, fun hn => ?_⟩
    · rw [places_of_isIntegral hn]
      exact Numeral.hasPlaces_placesText _ _ 0
    · rw [(places_of_not_isIntegral hn digits).2]
      exact Numeral.hasPlaces_placesText negative _ digits

end Double

theorem hasPlaces_resultText {x : Float} (h : x.isFinite = true) (digits : Nat) :
    ((Double.ofFloat x).IsIntegral → Numeral.HasPlaces 0 (resultText x digits).toList) ∧
      (¬ (Double.ofFloat x).IsIntegral →
        Numeral.HasPlaces digits (resultText x digits).toList) :=
  Double.hasPlaces_places ((Double.isFinite_ofFloat_iff x).2 h) digits

end PocketCalculator
