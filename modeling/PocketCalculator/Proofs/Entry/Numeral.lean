import PocketCalculator.Expression.Token
import Mathlib.Data.List.Basic
import Mathlib.Data.List.Induction

/-! The spelling of typed numbers: digits, and after them perhaps a point. While a number is typed
nothing need follow the point; in a number that is finished a digit does. -/

namespace PocketCalculator.Numeral

def AllDigits (cs : List Char) : Prop := cs ≠ [] ∧ ∀ c ∈ cs, c.isDigit = true

def Begun (cs : List Char) : Prop :=
  AllDigits cs ∨ ∃ whole fraction, cs = whole ++ '.' :: fraction ∧ AllDigits whole ∧
    ∀ c ∈ fraction, c.isDigit = true

def Finished (cs : List Char) : Prop :=
  AllDigits cs ∨ ∃ whole fraction, cs = whole ++ '.' :: fraction ∧ AllDigits whole ∧
    AllDigits fraction

variable {c : Char} {cs : List Char}

theorem AllDigits.point_not_mem (h : AllDigits cs) : '.' ∉ cs :=
  fun hm => absurd (h.2 _ hm) (by decide)

theorem allDigits_concat_iff :
    AllDigits (cs ++ [c]) ↔ c.isDigit = true ∧ (cs = [] ∨ AllDigits cs) := by
  constructor
  · rintro ⟨-, h⟩
    refine ⟨h c (by simp), ?_⟩
    by_cases hn : cs = []
    · exact .inl hn
    · exact .inr ⟨hn, fun d hd => h d (List.mem_append_left _ hd)⟩
  · rintro ⟨hc, h⟩
    refine ⟨by simp, fun d hd => ?_⟩
    rcases List.mem_append.1 hd with hd | hd
    · rcases h with rfl | h
      · exact absurd hd List.not_mem_nil
      · exact h.2 d hd
    · exact List.mem_singleton.1 hd ▸ hc

theorem Begun.ne_nil (h : Begun cs) : cs ≠ [] := by
  rcases h with h | ⟨whole, fraction, rfl, -, -⟩
  · exact h.1
  · simp

theorem Begun.exists_digit (h : Begun cs) : ∃ d ∈ cs, d.isDigit = true := by
  rcases h with h | ⟨whole, fraction, rfl, h, -⟩
  · obtain ⟨d, hd⟩ := List.exists_mem_of_ne_nil cs h.1
    exact ⟨d, hd, h.2 d hd⟩
  · obtain ⟨d, hd⟩ := List.exists_mem_of_ne_nil whole h.1
    exact ⟨d, List.mem_append_left _ hd, h.2 d hd⟩

def isPart (c : Char) : Bool := c.isDigit || c == '.'

theorem Begun.isPart_of_mem (h : Begun cs) : ∀ c ∈ cs, isPart c = true := by
  have digit : ∀ c : Char, c.isDigit = true → isPart c = true := fun c hc => by simp [isPart, hc]
  intro c hc
  rcases h with h | ⟨whole, fraction, rfl, hw, hf⟩
  · exact digit c (h.2 c hc)
  · rcases List.mem_append.1 hc with hc | hc
    · exact digit c (hw.2 c hc)
    · rcases List.mem_cons.1 hc with rfl | hc
      · rfl
      · exact digit c (hf c hc)

theorem begun_concat_iff :
    Begun (cs ++ [c]) ↔ c.isDigit = true ∧ (cs = [] ∨ Begun cs) ∨ c = '.' ∧ AllDigits cs := by
  constructor
  · rintro (h | ⟨whole, fraction, h, hw, hf⟩)
    · obtain ⟨hc, hn | h⟩ := allDigits_concat_iff.1 h
      · exact .inl ⟨hc, .inl hn⟩
      · exact .inl ⟨hc, .inr (.inl h)⟩
    · cases fraction using List.reverseRecOn with
      | nil =>
        obtain ⟨rfl, hc⟩ := List.append_inj' h rfl
        exact .inr ⟨List.head_eq_of_cons_eq hc, hw⟩
      | append_singleton fraction d =>
        rw [← List.cons_append, ← List.append_assoc] at h
        obtain ⟨rfl, hc⟩ := List.append_inj' h rfl
        have hd := List.head_eq_of_cons_eq hc
        subst hd
        have hbegun : Begun (whole ++ '.' :: fraction) :=
          .inr ⟨whole, fraction, rfl, hw, fun d hd => hf d (by simp [hd])⟩
        exact .inl ⟨hf c (by simp), .inr hbegun⟩
  · rintro (⟨hc, rfl | h | ⟨whole, fraction, rfl, hw, hf⟩⟩ | ⟨rfl, h⟩)
    · exact .inl (allDigits_concat_iff.2 ⟨hc, .inl rfl⟩)
    · exact .inl (allDigits_concat_iff.2 ⟨hc, .inr h⟩)
    · refine .inr ⟨whole, fraction ++ [c], by simp, hw, fun d hd => ?_⟩
      rcases List.mem_append.1 hd with hd | hd
      · exact hf d hd
      · exact List.mem_singleton.1 hd ▸ hc
    · exact .inr ⟨cs, [], rfl, h, by simp⟩

theorem allDigits_iff : AllDigits cs ↔ Begun cs ∧ '.' ∉ cs := by
  constructor
  · exact fun h => ⟨.inl h, h.point_not_mem⟩
  · rintro ⟨h | ⟨whole, fraction, rfl, -, -⟩, hp⟩
    · exact h
    · exact absurd (by simp) hp

theorem finished_iff : Finished cs ↔ Begun cs ∧ cs.getLast? ≠ some '.' := by
  constructor
  · rintro (h | ⟨whole, fraction, rfl, hw, hf⟩)
    · exact ⟨.inl h, fun hl => h.point_not_mem (List.mem_of_getLast? hl)⟩
    · refine ⟨.inr ⟨whole, fraction, rfl, hw, hf.2⟩,
        fun hl => hf.point_not_mem (List.mem_of_getLast? ?_)⟩
      rwa [← List.singleton_append, ← List.append_assoc,
        List.getLast?_append_of_ne_nil _ hf.1] at hl
  · rintro ⟨h | ⟨whole, fraction, rfl, hw, hf⟩, hl⟩
    · exact .inl h
    · refine .inr ⟨whole, fraction, rfl, hw, fun hn => hl ?_, hf⟩
      simp [hn]

end PocketCalculator.Numeral
