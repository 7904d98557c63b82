import PocketCalculator.Proofs.Entry.Arithmetic
import PocketCalculator.Proofs.Entry.Held
import PocketCalculator.Proofs.Expression.Conservation

/-! Brackets of entries that documents and keys bring about together. An evaluation refuses open
brackets that nothing closes, but not a closing bracket without partner. There all operators that
wait take effect, so that `1 + 2 ) × 3` comes to 9. A document may hold such brackets, and keys
neither add one nor make good for one. -/

namespace PocketCalculator
open ReversePolish
variable {ts : List Token}

theorem count_le_openBracketCount_append (front back : List Token) :
    back.count .openBracket ≤ openBracketCount (front ++ back) + back.count .closeBracket := by
  induction back using List.reverseRecOn with
  | nil => exact Nat.zero_le _
  | append_singleton back t ih =>
    rw [← List.append_assoc, openBracketCount_concat, count_concat, count_concat]
    cases t with
    | openBracket =>
      simp only [reduceIte, reduceCtorEq]
      omega
    | closeBracket =>
      simp only [reduceIte, reduceCtorEq]
      omega
    | operand o => simpa using ih
    | operator op => simpa using ih

theorem exists_suffix_count_eq (ts : List Token) :
    ∃ back, back <:+ ts ∧
      back.count .openBracket = openBracketCount ts + back.count .closeBracket := by
  -- The part reaches back to the last closing bracket that found none open.
  induction ts using List.reverseRecOn with
  | nil => exact ⟨[], List.nil_suffix, rfl⟩
  | append_singleton ts t ih =>
    obtain ⟨back, ⟨front, rfl⟩, hcount⟩ := ih
    have hsuffix : back ++ [t] <:+ front ++ back ++ [t] := ⟨front, (List.append_assoc ..).symm⟩
    rw [openBracketCount_concat]
    cases t with
    | openBracket =>
      refine ⟨_, hsuffix, ?_⟩
      simp only [count_concat, reduceIte, reduceCtorEq]
      omega
    | closeBracket =>
      by_cases hzero : openBracketCount (front ++ back) = 0
      · exact ⟨[], List.nil_suffix, by simp [hzero]⟩
      · refine ⟨_, hsuffix, ?_⟩
        simp only [count_concat, reduceIte, reduceCtorEq]
        omega
    | operand o => exact ⟨_, hsuffix, by simpa [count_concat] using hcount⟩
    | operator op => exact ⟨_, hsuffix, by simpa [count_concat] using hcount⟩

theorem openBracketCount_eq_zero_iff :
    openBracketCount ts = 0 ↔
      ∀ back, back <:+ ts → back.count .openBracket ≤ back.count .closeBracket := by
  constructor
  · rintro hzero back ⟨front, rfl⟩
    have hle := count_le_openBracketCount_append front back
    rwa [hzero, Nat.zero_add] at hle
  · intro h
    obtain ⟨back, hsuffix, hcount⟩ := exists_suffix_count_eq ts
    have hle := h back hsuffix
    omega

namespace Entry
variable {o e e' : Entry} {k : EditKey} {ks : List EditKey}

theorem Held.count_lt_of_closeBracket (h : e.Held) (hb : Balanced e.tokens)
    (hk : e.press .closeBracket = .ok e') :
    e.stream.count .closeBracket < e.stream.count .openBracket := by
  obtain ⟨hopen, -⟩ := (allows_iff h.allowed_eq .closeBracket).1 (press_eq_ok_iff.1 hk).1
  have hadd := (balanced_stream_iff.2 hb).openBracketCount_add
  rw [openBracketCount_stream, ← h.openBrackets_eq] at hadd
  omega

theorem Held.balanced_press_iff (h : e.Held) (hk : e.press k = .ok e') :
    Balanced e'.tokens ↔ Balanced e.tokens := by
  have happend (t : Token) (ht : Balanced e.tokens → t = .closeBracket →
      e.stream.count .closeBracket < e.stream.count .openBracket) :
      Balanced (e.finishOperand.append t).tokens ↔ Balanced e.tokens := by
    rw [tokens_append_finishOperand, balanced_concat_iff, balanced_stream_iff]
    exact and_iff_left_of_imp ht
  obtain ⟨-, -, rfl⟩ := press_eq_ok_iff.1 hk
  cases k with
  | digit c => exact Iff.rfl
  | signFlip => exact Iff.rfl
  | decimalPoint => exact Iff.rfl
  | openBracket => exact happend _ fun _ ht => by cases ht
  | closeBracket => exact happend _ fun hb _ => h.count_lt_of_closeBracket hb hk
  | operator op => exact happend _ fun _ ht => by cases ht

theorem Held.balanced_keys_iff (h : o.Held) (hk : ks.foldlM Entry.press o = .ok e) :
    e.Held ∧ (Balanced e.tokens ↔ Balanced o.tokens) :=
  @keys_induction (fun e => e.Held ∧ (Balanced e.tokens ↔ Balanced o.tokens)) _ _ _ ⟨h, Iff.rfl⟩
    (fun hp hpress => ⟨hp.1.press hpress, (hp.1.balanced_press_iff hpress).trans hp.2⟩) hk

/-- Where there is a value every open bracket is closed later. Tokens that have one hold closing
brackets without partner just if those did that the keys began with, which may be any that were
loaded. A closing bracket that finds none open does not stand in the way of a value but parts the
expression: what is evaluated is the conversion of what comes before it and then that of what comes
after it. -/
theorem closed_of_evaluate (h : o.Held) (hk : ks.foldlM Entry.press o = .ok e) :
    (∀ x, e.evaluate = .ok x →
      (∀ back, back <:+ e.tokens → back.count .openBracket ≤ back.count .closeBracket) ∧
        (e.tokens.count .openBracket = e.tokens.count .closeBracket ∧ Balanced e.tokens ↔
          Balanced o.tokens)) ∧
      ∀ front rest, e.typed = front ++ ")" :: rest →
        openBracketCount (front.map Token.ofText) = 0 →
          ofTyped e.typed = ofTyped front ++ ofTyped rest ∧
            ∀ x, e.evaluate = .ok x ↔
              e.openBrackets = 0 ∧ ReversePolish.evaluate (ofTyped front ++ ofTyped rest) = .ok x := by
  obtain ⟨held, hbalanced⟩ := h.balanced_keys_iff hk
  refine ⟨fun x hx => ?_, fun front rest htyped hfront => ?_⟩
  · have hzero : openBracketCount e.tokens = 0 :=
      held.openBrackets_eq.symm.trans (evaluate_eq_ok_iff.1 hx).1
    refine ⟨openBracketCount_eq_zero_iff.1 hzero, ?_⟩
    rw [and_iff_right_of_imp fun hb => ?_, hbalanced]
    rw [← hb.openBracketCount_add, hzero, Nat.zero_add]
  · have hparts : ofTyped e.typed = ofTyped front ++ ofTyped rest :=
      htyped ▸ ofTyped_append_closeBracket hfront rest
    exact ⟨hparts, fun x => hparts ▸ evaluate_eq_ok_iff⟩

theorem closed_of_evaluate_stray :
    let o := restore "" .positive
      [.operand ⟨"1", .positive⟩, .operator .add, .operand ⟨"2", .positive⟩, .closeBracket]
    let e := restore "3" .positive (o.tokens ++ [.operator .multiply])
    o.Held ∧ [EditKey.operator .multiply, .digit '3'].foldlM Entry.press o = .ok e ∧
      e.typed = ["1", "+", "2"] ++ ")" :: ["×", "3"] ∧
      ofTyped e.typed = ["1", "2", "+"] ++ ["3", "×"] ∧ e.evaluate = .ok 9 ∧
      ¬ (e.tokens.count .openBracket = e.tokens.count .closeBracket ∧ Balanced e.tokens) := by
  intro o e
  have held : o.Held := held_restore "" .positive _
  have keys : [EditKey.operator .multiply, .digit '3'].foldlM Entry.press o = .ok e := by decide
  have typed : e.typed = ["1", "+", "2"] ++ ")" :: ["×", "3"] := by decide
  have nine : ReversePolish.evaluate (["1", "2", "+"] ++ ["3", "×"]) = .ok 9 := by decide +kernel
  obtain ⟨hbalanced, hflush⟩ := closed_of_evaluate held keys
  obtain ⟨parts, values⟩ := hflush _ _ typed (by decide)
  have value : e.evaluate = .ok 9 := (values 9).2 ⟨rfl, nine⟩
  have stray : ¬ Balanced o.tokens := fun hb => absurd (hb o.tokens List.prefix_rfl) (by decide)
  exact ⟨held, keys, typed, parts, value, fun hb => stray ((hbalanced 9 value).2.1 hb)⟩

theorem evaluate_of_stray_closeBracket :
    let document : Json := .object
      [(some "current_number", .named "5"), (some "tokens", .array [.named "CloseBracket"])]
    let e := restore "5" .positive [.closeBracket]
    Stored.load? document.render = some e ∧ e.Held ∧ e.evaluate = .ok 5 ∧
      ¬ (e.tokens.count .openBracket = e.tokens.count .closeBracket ∧ Balanced e.tokens) := by
  intro document e
  have load : Stored.load? document.render = some e :=
    Stored.load?_of_parse? (Json.parse?_render document)
  have value : e.evaluate = .ok 5 :=
    evaluate_eq_ok_iff.2 ⟨rfl, evaluate_eq_ok_iff_pushAll.2 (by decide)⟩
  exact ⟨load, .load load, value, fun h => absurd h.1 (by decide)⟩

end Entry
end PocketCalculator
