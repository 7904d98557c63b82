import PocketCalculator.Proofs.Number.Range
import Mathlib.Data.List.TakeWhile

/-! Typed numbers are literals: they can be read, and only their size can keep them from having a
value. -/

namespace PocketCalculator

namespace Numeral

def Literal (cs : List Char) : Prop := Begun cs ∨ ∃ ds, cs = '-' :: ds ∧ Begun ds

theorem literal_plain {o : Operand} (h : Begun o.digits.toList) : Literal o.plain.toList := by
  unfold Operand.plain
  split
  · exact .inl h
  · rw [String.toList_append]
    exact .inr ⟨_, rfl, h⟩

end Numeral

namespace Decimal
open Numeral

variable {cs ds rest : List Char}

theorem splitDigits_append (hd : ∀ c ∈ ds, c.isDigit = true)
    (hr : ∀ c ∈ rest.head?, c.isDigit = false) : splitDigits (ds ++ rest) = (ds, rest) := by
  rw [splitDigits, List.takeWhile_append_of_pos hd, List.dropWhile_append_of_pos hd]
  cases rest with
  | nil => simp
  | cons c rest => simp [hr c rfl]

theorem splitSign_of_begun (h : Begun cs) : splitSign cs = (false, cs) := by
  have hpart := h.isPart_of_mem
  unfold splitSign
  split
  · exact absurd (hpart '-' (by simp)) (by decide)
  · exact absurd (hpart '+' (by simp)) (by decide)
  · rfl

/-- Digits are read as they stand, and the number of those after the point scales them, whatever
sign stood in front. -/
theorem ofChars?_eq {negative : Bool} {whole point fraction : List Char}
    (hs : splitSign cs = (negative, whole ++ (point ++ fraction))) (hw : AllDigits whole)
    (hf : ∀ c ∈ fraction, c.isDigit = true)
    (hp : point = [] ∧ fraction = [] ∨ point = ['.']) :
    ofChars? cs = some ⟨negative, ofDigits (whole ++ fraction), -fraction.length⟩ := by
  have hwhole : splitDigits (whole ++ (point ++ fraction)) = (whole, point ++ fraction) := by
    refine splitDigits_append hw.2 fun c hc => ?_
    rcases hp with ⟨rfl, rfl⟩ | rfl
    · cases hc
    · cases hc
      rfl
  have hfraction : splitFraction (point ++ fraction) = (fraction, []) := by
    rcases hp with ⟨rfl, rfl⟩ | rfl
    · rfl
    · have hsplit : splitDigits (fraction ++ []) = (fraction, []) :=
        splitDigits_append hf fun c hc => by cases hc
      rwa [List.append_nil] at hsplit
  rw [ofChars?, hs]
  simp only [hwhole, hfraction]
  rw [if_neg (fun h => hw.1 h.1), exponent?, Option.map_some, zero_sub]

theorem exists_ofChars? {negative : Bool} (hs : splitSign cs = (negative, ds)) (h : Begun ds) :
    ∃ d, ofChars? cs = some d := by
  rcases h with hd | ⟨whole, fraction, rfl, hw, hf⟩
  · have hread : splitSign cs = (negative, ds ++ ([] ++ [])) := by
      rw [hs, List.append_nil, List.append_nil]
    exact ⟨_, ofChars?_eq hread hd (fun c hc => by cases hc) (.inl ⟨rfl, rfl⟩)⟩
  · exact ⟨_, ofChars?_eq hs hw hf (.inr rfl)⟩

theorem exists_ofString?_of_literal {s : String} (h : Literal s.toList) :
    ∃ d, ofString? s = some d := by
  rw [ofString?]
  rcases h with h | ⟨ds, hs, h⟩
  · exact exists_ofChars? (splitSign_of_begun h) h
  · rw [hs]
    exact exists_ofChars? rfl h

end Decimal

theorem value?_lt_of_literal {s : String} (h : Numeral.Literal s.toList) (hn : number? s = none) :
    ∃ d, Decimal.ofString? s = some d ∧
      ∀ (x : Float) (v : ℚ), (Double.ofFloat x).value? = some v → v < d.magnitude := by
  obtain ⟨d, hd⟩ := Decimal.exists_ofString?_of_literal h
  have hinfinite : d.toFloat.isFinite = false := by
    rw [number?, hd] at hn
    simpa using hn
  exact ⟨d, hd, fun x v hv => d.value?_lt_magnitude hinfinite hv⟩

end PocketCalculator
