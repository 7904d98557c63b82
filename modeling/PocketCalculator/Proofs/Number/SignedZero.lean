import PocketCalculator.Proofs.Number.Nearest

/-! The sign of a result's text is that of the exact value, but whether a zero is shown is settled
by rounding. A small negative value is shown as a zero with a sign. -/

namespace PocketCalculator

namespace Numeral

def AllZeros (cs : List Char) : Prop := ∀ c ∈ cs, c.isDigit = true → c = '0'

theorem forall_mem_padded_iff {n : ℕ} (places : ℕ) : (∀ c ∈ padded n places, c = '0') ↔ n = 0 := by
  constructor
  · intro h
    have hvalue := ofDigitChars_padded n places
    rw [List.eq_replicate_of_mem h, Nat.ofDigitChars_replicate_zero, Nat.mul_zero] at hvalue
    exact hvalue.symm
  · rintro rfl c hc
    rw [padded, Nat.toDigits_zero] at hc
    rcases List.mem_append.1 hc with hc | hc
    · exact List.eq_of_mem_replicate hc
    · exact List.mem_singleton.1 hc

theorem mem_placesText_iff {c : Char} {n places : ℕ} (hc : c ≠ '.') :
    c ∈ (placesText n places).toList ↔ c ∈ padded n places := by
  obtain ⟨whole, point, fraction, htext, hpadded, -, -, -, hpoint⟩ :=
    exists_toList_placesText n places
  have hmiddle : c ∉ point := by
    rcases hpoint with ⟨-, rfl, -⟩ | ⟨-, rfl⟩
    · exact List.not_mem_nil
    · exact fun hm => hc (List.mem_singleton.1 hm)
  rw [htext, ← hpadded, List.mem_append, List.mem_append, List.mem_append]
  exact ⟨fun h => h.imp_right fun h => h.resolve_left hmiddle, fun h => h.imp_right .inr⟩

theorem allZeros_placesText_iff {negative : Bool} {n places : ℕ} :
    AllZeros (signText negative ++ placesText n places).toList ↔ n = 0 := by
  have hpoint {c : Char} (hc : c.isDigit = true) : c ≠ '.' := by
    rintro rfl
    exact absurd hc (by decide)
  have hsign : ∀ c ∈ (signText negative).toList, c.isDigit = false := by
    intro c hc
    rcases signText_cases negative with hs | hs <;> rw [hs] at hc
    · cases hc
    · rw [List.mem_singleton.1 hc]
      decide
  rw [← forall_mem_padded_iff places, String.toList_append]
  constructor
  · intro h c hc
    have hdigit := isDigit_of_mem_padded c hc
    exact h c (List.mem_append_right _ ((mem_placesText_iff (hpoint hdigit)).2 hc)) hdigit
  · intro h c hc hdigit
    rcases List.mem_append.1 hc with hc | hc
    · rw [hsign c hc] at hdigit
      cases hdigit
    · exact h c ((mem_placesText_iff (hpoint hdigit)).1 hc)

theorem minus_mem_placesText_iff {negative : Bool} {n places : ℕ} :
    '-' ∈ (signText negative ++ placesText n places).toList ↔ negative = true := by
  have hdigits : '-' ∉ (placesText n places).toList := by
    rw [mem_placesText_iff (by decide)]
    exact fun h => absurd (isDigit_of_mem_padded _ h) (by decide)
  rw [String.toList_append, List.mem_append, or_iff_left hdigits]
  cases negative <;> decide

end Numeral

theorem IsNearest.eq_zero_iff {places k : ℕ} {x : ℚ} (h : IsNearest places x k) (hx : 0 ≤ x) :
    k = 0 ↔ x * 10 ^ places ≤ 1 / 2 := by
  obtain ⟨y, hy⟩ : ∃ y, y = x * 10 ^ places := ⟨_, rfl⟩
  have hnonneg : 0 ≤ y := hy ▸ by positivity
  obtain ⟨hle, heven⟩ := h.half
  rw [← hy, Int.cast_natCast] at hle heven
  rw [← hy]
  constructor
  · rintro rfl
    rwa [Nat.cast_zero, sub_zero, abs_of_nonneg hnonneg] at hle
  · intro hhalf
    by_contra hk
    have hone : (1 : ℚ) ≤ k := Nat.one_le_cast.2 (Nat.pos_of_ne_zero hk)
    -- Only the one half is as near to one, and that is odd.
    have hoff : |y - k| = k - y := by rw [abs_sub_comm, abs_of_nonneg (by linarith)]
    rw [hoff] at hle heven
    have hkone : (k : ℚ) = 1 := by linarith
    have hodd := heven (by linarith)
    rw [Nat.cast_eq_one.1 hkone] at hodd
    exact absurd hodd (by decide)

namespace Double

theorem signed_neg_iff {negative : Bool} {significand : ℕ} {exponent : ℤ} :
    (if negative then -1 else 1 : ℚ) * (significand * 2 ^ exponent) < 0 ↔
      (negative && decide (significand ≠ 0)) = true := by
  have hnonneg : (0 : ℚ) ≤ significand * 2 ^ exponent := by positivity
  have hpos : (0 : ℚ) < significand * 2 ^ exponent ↔ significand ≠ 0 := by
    rw [mul_pos_iff_of_pos_right (by positivity), Nat.cast_pos, Nat.pos_iff_ne_zero]
  rw [Bool.and_eq_true, decide_eq_true_iff, ← hpos]
  cases negative with
  | true => simp
  | false => simpa using hnonneg

theorem abs_signed (negative : Bool) {x : ℚ} (hx : 0 ≤ x) :
    |(if negative then -1 else 1) * x| = x := by
  cases negative with
  | true => rw [if_pos rfl, neg_one_mul, abs_neg, abs_of_nonneg hx]
  | false => rw [if_neg Bool.false_ne_true, one_mul, abs_of_nonneg hx]

theorem exists_sign_places {d : Double} (h : d.IsFinite) (digits : ℕ) :
    ∃ v : ℚ, d.value? = some v ∧ ('-' ∈ (d.places digits).toList ↔ v < 0) ∧
      (Numeral.AllZeros (d.places digits).toList ↔ |v| * 10 ^ digits ≤ 1 / 2) := by
  cases d with
  | nan => cases h
  | infinity negative => cases h
  | finite negative significand exponent =>
    obtain ⟨n, places, k, htext, hscale, hnearest, -, -⟩ :=
      exists_places negative significand exponent digits
    have hnonneg : (0 : ℚ) ≤ significand * 2 ^ exponent := by positivity
    have hzero : n = 0 ↔ k = 0 := by
      rw [div_eq_div_iff (by positivity) (by positivity)] at hscale
      constructor
      · rintro rfl
        simpa using hscale.symm
      · rintro rfl
        simpa using hscale
    refine ⟨_, rfl, ?_, ?_⟩
    · rw [htext, Numeral.minus_mem_placesText_iff, signed_neg_iff]
    · rw [htext, Numeral.allZeros_placesText_iff, hzero, hnearest.eq_zero_iff hnonneg,
        abs_signed negative hnonneg]

end Double

/-- A result is shown as a zero with a sign where it is negative and at most half a unit of the last
place. -/
theorem resultText_sign {x : Float} (h : x.isFinite = true) (digits : ℕ) :
    ∃ v : ℚ, (Double.ofFloat x).value? = some v ∧
      ('-' ∈ (resultText x digits).toList ↔ v < 0) ∧
      (Numeral.AllZeros (resultText x digits).toList ↔ |v| * 10 ^ digits ≤ 1 / 2) ∧
      ((Numeral.AllZeros (resultText x digits).toList → '-' ∉ (resultText x digits).toList) ↔
        (v < 0 → 1 / 2 < |v| * 10 ^ digits)) := by
  obtain ⟨v, hv, hsign, hzeros⟩ :=
    Double.exists_sign_places ((Double.isFinite_ofFloat_iff x).2 h) digits
  refine ⟨v, hv, hsign, hzeros, ?_⟩
  rw [show resultText x digits = (Double.ofFloat x).places digits from rfl, hsign, hzeros,
    imp_not_comm, not_le]

theorem resultText_sign_half :
    Float.isFinite (-0.5) = true ∧ (Double.ofFloat (-0.5)).value? = some (-1 / 2) ∧
      resultText (-0.5) 0 = "-0" ∧ '-' ∈ "-0".toList ∧ Numeral.AllZeros "-0".toList := by
  have hparts : Double.ofFloat (-0.5) = .finite true 4503599627370496 (-53) := by decide +kernel
  have hhalf : (Double.ofFloat (-0.5)).value? = some (-1 / 2) := by
    rw [hparts, Double.value?]
    norm_num
  have hfinite : Float.isFinite (-0.5) = true := by decide +kernel
  have htext : resultText (-0.5) 0 = "-0" := by decide +kernel
  obtain ⟨v, hv, hsign, hzeros, -⟩ := resultText_sign hfinite 0
  obtain rfl : (-1 / 2 : ℚ) = v := Option.some.inj (hhalf.symm.trans hv)
  rw [htext] at hsign hzeros
  exact ⟨hfinite, hhalf, htext, hsign.2 (by norm_num), hzeros.2 (by norm_num [abs_of_neg])⟩

theorem resultText_negative_thousandth :
    Float.isFinite (-1 / 1000) = true ∧ resultText (-1 / 1000) 2 = "-0.00" ∧
      Numeral.AllZeros "-0.00".toList ∧ '-' ∈ "-0.00".toList := by
  have htext : signText true ++ placesText 0 2 = "-0.00" := by decide
  exact ⟨by decide +kernel, by decide +kernel, htext ▸ Numeral.allZeros_placesText_iff.2 rfl,
    by decide⟩

end PocketCalculator
