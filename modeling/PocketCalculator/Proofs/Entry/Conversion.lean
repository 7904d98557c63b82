import PocketCalculator.Proofs.Entry.Arithmetic
import PocketCalculator.Proofs.Entry.Reachability
import PocketCalculator.Proofs.Expression.Brackets
import PocketCalculator.Proofs.Expression.Reordering
import PocketCalculator.Proofs.Number.Literal

/-! What the conversion makes of an entry whose brackets are closed, and which faults are left for
its evaluation. -/

namespace PocketCalculator
open ReversePolish

theorem Layers.surplus_le_one {p : Phase} {ts : List String} (h : Layers p 0 ts) :
    surplus ts ≤ 1 := by
  cases h with
  | base h =>
    cases p with
    | wanting => exact Int.le_trans h.1 (by decide)
    | complete => exact h.1

namespace Token

def sent : Token → List String
  | operand o => [o.plain]
  | operator op => [op.symbol]
  | _ => []

theorem sent_ofText_plain {t : Token} (h : ∀ o, t = .operand o → o.plain ∉ marks) :
    (Word.ofText t.plain).sent = t.sent := by
  cases t with
  | operand o =>
    have hleaf : Word.ofText o.plain = .leaf o.plain :=
      Word.ofText_eq_leaf_iff_not_mem_marks.2 (h o rfl)
    rw [plain, hleaf]
    rfl
  | operator op =>
    rw [plain, Word.ofText_symbol op.symbol_mem_symbols]
    rfl
  | openBracket => rfl
  | closeBracket => rfl

end Token

namespace Entry
variable {e : Entry} {s : String}

theorem Conforms.plain_ne_bracket (h : e.Conforms) {o : Operand} (ho : .operand o ∈ e.stream) :
    o.plain ≠ "(" ∧ o.plain ≠ ")" := by
  have hmarks := h.plain_not_mem_marks ho
  exact ⟨fun he => hmarks (he ▸ by decide), fun he => hmarks (he ▸ by decide)⟩

theorem Conforms.mem_ofTyped_iff (h : e.Conforms) (hb : e.openBrackets = 0) :
    s ∈ ofTyped e.typed ↔ ∃ t ∈ e.stream, s ∈ t.sent := by
  have hn := nested_of_balanced (balanced_stream_iff.2 h.balanced) fun o => h.plain_ne_bracket
  rw [h.openBracketCount_stream, hb, ← typed_eq_map_stream] at hn
  obtain ⟨ops, hops⟩ := hn.exists_after_zero
  have hsent : ∀ t ∈ e.stream, (Word.ofText t.plain).sent = t.sent := fun t ht =>
    Token.sent_ofText_plain fun o ho => h.plain_not_mem_marks (ho ▸ ht)
  rw [(ofTyped_perm hops).mem_iff, typed_eq_map_stream, List.mem_flatMap]
  constructor
  · rintro ⟨text, hmem, hs⟩
    obtain ⟨t, ht, rfl⟩ := List.mem_map.1 hmem
    exact ⟨t, ht, hsent t ht ▸ hs⟩
  · rintro ⟨t, ht, hs⟩
    exact ⟨t.plain, List.mem_map_of_mem ht, (hsent t ht).symm ▸ hs⟩

theorem Conforms.of_mem_ofTyped (h : e.Conforms) (hb : e.openBrackets = 0)
    (hs : s ∈ ofTyped e.typed) :
    s ∉ ["", "(", ")"] ∧ ((∃ op : Operator, s = op.symbol) ∨ Numeral.Literal s.toList) := by
  obtain ⟨t, ht, hs⟩ := (h.mem_ofTyped_iff hb).1 hs
  cases t with
  | operand o =>
    obtain rfl := List.mem_singleton.1 hs
    have hsub : ["", "(", ")"] ⊆ marks := by decide
    exact ⟨fun hm => h.plain_not_mem_marks ht (hsub hm),
      .inr (Numeral.literal_plain (h.begun_of_mem_stream ht))⟩
  | operator op =>
    obtain rfl := List.mem_singleton.1 hs
    exact ⟨by cases op <;> decide, .inl ⟨op, rfl⟩⟩
  | openBracket => cases hs
  | closeBracket => cases hs

theorem Conforms.of_leftoverValues (h : e.Conforms) (hb : e.openBrackets = 0) {n : Nat}
    (hn : ReversePolish.evaluate (ofTyped e.typed) = .error (.leftoverValues n)) :
    n = 0 ∧ ∀ s ∈ e.typed, s = "(" ∨ s = ")" := by
  obtain ⟨values, hvalues, rfl, hone⟩ := pushAll_of_leftoverValues hn
  have hl := h.layers
  rw [hb] at hl
  have hlength := length_of_pushAll hvalues
  have hsurplus := hl.surplus_le_one
  rw [surplus_ofTyped] at hlength
  simp only [List.length_nil] at hlength
  -- There is never more than one value, so that here there is none, and nothing came out.
  have hzero : values.length = 0 := by omega
  refine ⟨hzero, fun s hs => ?_⟩
  rw [List.eq_nil_of_length_eq_zero hzero] at hvalues
  obtain ⟨-, hblank⟩ := eq_nil_of_pushAll hvalues
  rw [typed_eq_map_stream] at hs
  obtain ⟨t, ht, rfl⟩ := List.mem_map.1 hs
  have hsent : ∀ s ∈ t.sent, s = "" := fun s hs =>
    hblank s ((h.mem_ofTyped_iff hb).2 ⟨t, ht, hs⟩)
  cases t with
  | operand o =>
    have hempty : o.plain = "" := hsent _ (List.mem_singleton.2 rfl)
    exact absurd (hempty ▸ by decide) (h.plain_not_mem_marks ht)
  | operator op =>
    have hempty : op.symbol = "" := hsent _ (List.mem_singleton.2 rfl)
    exact absurd hempty (by cases op <;> decide)
  | openBracket => exact .inl rfl
  | closeBracket => exact .inr rfl

theorem Conforms.of_unknownToken (h : e.Conforms) (hb : e.openBrackets = 0)
    (hs : ReversePolish.evaluate (ofTyped e.typed) = .error (.unknownToken s)) :
    Numeral.Literal s.toList ∧ ∃ d, Decimal.ofString? s = some d ∧
      ∀ (x : Float) (v : ℚ), (Double.ofFloat x).value? = some v → v < d.magnitude := by
  obtain ⟨hmem, hn, ho⟩ := mem_of_unknownToken hs
  rcases (h.of_mem_ofTyped hb hmem).2 with ⟨op, rfl⟩ | hl
  · rw [Operator.ofSymbol?_symbol] at ho
    cases ho
  · exact ⟨hl, value?_lt_of_literal hl hn⟩

/-- An entry whose brackets are closed keeps to what the conversion and the evaluation expect.
Every closing bracket finds the one that it matches on the stack, and the stack below that one is as
it was before it. What comes out are operators and literals. Values are left over only if there is
nothing but brackets, and a literal is refused only if it is larger than every finite double. -/
theorem conversion_of_reached (h : e.Reached) (hb : e.openBrackets = 0) :
    let output := ofTyped e.typed
    (∀ front rest, e.typed = front ++ ")" :: rest → ∃ before inner ops,
      front = before ++ "(" :: inner ∧ Matched inner ∧
        Stack.after [] front = Stack.waiting ops ++ .bracket :: Stack.after [] before) ∧
      (∀ s ∈ output, s ∉ ["", "(", ")"] ∧
        ((∃ op : Operator, s = op.symbol) ∨ Numeral.Literal s.toList)) ∧
      (∀ n, ReversePolish.evaluate output = .error (.leftoverValues n) →
        n = 0 ∧ ∀ s ∈ e.typed, s = "(" ∨ s = ")") ∧
      ∀ s, ReversePolish.evaluate output = .error (.unknownToken s) →
        Numeral.Literal s.toList ∧ ∃ d, Decimal.ofString? s = some d ∧
          ∀ (x : Float) (v : ℚ), (Double.ofFloat x).value? = some v → v < d.magnitude := by
  intro output
  have hc := h.conforms
  refine ⟨fun front rest hf => ?_, fun s hs => hc.of_mem_ofTyped hb hs,
    fun n hn => hc.of_leftoverValues hb hn, fun s hs => hc.of_unknownToken hb hs⟩
  rw [typed_eq_map_stream] at hf
  exact exists_open_of_balanced (balanced_stream_iff.2 hc.balanced)
    (fun o => hc.plain_ne_bracket) hf

theorem conversion_of_reached_nines :
    let nines := String.ofList (List.replicate 310 '9')
    let e := restore "" .positive [.openBracket, .operand ⟨nines, .positive⟩, .closeBracket]
    e.Reached ∧ e.openBrackets = 0 ∧ e.typed = ["(", nines] ++ ")" :: [] ∧
      (∃ before inner ops, ["(", nines] = before ++ "(" :: inner ∧ Matched inner ∧
        Stack.after [] ["(", nines] = Stack.waiting ops ++ .bracket :: Stack.after [] before) ∧
      ReversePolish.evaluate (ofTyped e.typed) = .error (.unknownToken nines) ∧
      ∃ d, Decimal.ofString? nines = some d ∧
        ∀ (x : Float) (v : ℚ), (Double.ofFloat x).value? = some v → v < d.magnitude := by
  intro nines e
  have digits : Numeral.AllDigits nines.toList := by
    rw [String.toList_ofList]
    exact ⟨List.cons_ne_nil _ _, fun c hc => List.eq_of_mem_replicate hc ▸ rfl⟩
  have read : Decimal.ofChars? (List.replicate 310 '9') = some ⟨false, 10 ^ 310 - 1, 0⟩ := by
    decide +kernel
  have none : number? nines = none := by
    rw [number?, Decimal.ofString?, String.toList_ofList, read]
    decide +kernel
  have balanced : Balanced [.openBracket, .operand ⟨nines, .positive⟩, .closeBracket] := by
    have group : Balanced ([] ++ [.openBracket] ++ [.operand ⟨nines, .positive⟩]) :=
      balanced_concat_iff.2
        ⟨balanced_concat_iff.2 ⟨balanced_nil, fun h => by cases h⟩, fun h => by cases h⟩
    exact @balanced_concat_iff [.openBracket, .operand ⟨nines, .positive⟩] _ |>.2
      ⟨group, fun _ => Nat.zero_lt_one⟩
  have reached : e.Reached := by
    refine (conforms_restore ?_ balanced ?_ (fun h => absurd rfl h) ?_ fun _ => rfl).reached
    · exact ⟨.inr rfl, .inl rfl, .inr rfl, trivial⟩
    · rintro o ho
      obtain rfl : o = ⟨nines, .positive⟩ := by simpa using ho
      exact .inl digits
    · decide
  have reads : Reads .expression ["(", nines, ")"] (.leaf nines) :=
    .term (.factor (@Reads.group [nines] _ (.term (.factor
      (.leaf (Operand.plain_not_mem_marks (o := ⟨nines, .positive⟩) (.inl digits)))))))
  have fault : ReversePolish.evaluate (ofTyped e.typed) = .error (.unknownToken nines) := by
    have htyped : e.typed = ["(", nines, ")"] := rfl
    rw [htyped, evaluate_ofTyped_of_reads reads]
    exact (Tree.Fails.leaf none).evaluate
  obtain ⟨hbracket, -, -, hunknown⟩ := conversion_of_reached reached rfl
  exact ⟨reached, rfl, rfl, hbracket _ _ rfl, fault, (hunknown nines fault).2⟩

end Entry
end PocketCalculator
