import PocketCalculator.Proofs.Expression.Brackets
import PocketCalculator.Proofs.Expression.Reordering

/-! What any texts at all and their conversion have in common: the leaves in their order, how often
each operator occurs, and as many brackets in the output as the source leaves open. -/

namespace PocketCalculator

namespace Operator
variable {op op' : Operator} {s : String}

theorem eq_of_mem_symbols (h : s ∈ op.symbols) (h' : s ∈ op'.symbols) : op = op' :=
  Option.some.inj ((ofSymbol?_eq_some_iff.2 h).symm.trans (ofSymbol?_eq_some_iff.2 h'))

theorem mem_marks_of_mem_symbols (h : s ∈ op.symbols) : s ∈ marks := by
  have hsub : op.symbols ⊆ marks := by cases op <;> decide
  exact hsub h

theorem symbol_mem_marks (op : Operator) : op.symbol ∈ marks :=
  mem_marks_of_mem_symbols op.symbol_mem_symbols

end Operator

/-- What a text stands for in an entry. An alias stands for its operator, and what is neither a
bracket nor an operator for an operand. -/
def Token.ofText (s : String) : Token :=
  match ReversePolish.Word.ofText s with
  | .openBracket => openBracket
  | .closeBracket => closeBracket
  | .operator op => operator op
  | _ => operand ⟨s, .positive⟩

namespace ReversePolish
variable {s t : String}

theorem Word.ofText_eq_operator_iff {op : Operator} : ofText s = .operator op ↔ s ∈ op.symbols := by
  refine ⟨fun h => ?_, ofText_symbol⟩
  unfold ofText at h
  split at h
  · cases h
  · split at h
    · cases h
    · split at h
      · cases h
      · split at h
        · cases h
          exact Operator.ofSymbol?_eq_some_iff.1 ‹_›
        · cases h

theorem Word.of_mem_sent (h : s ∈ (ofText t).sent) :
    (∃ op : Operator, t ∈ op.symbols ∧ s = op.symbol) ∨ s ∉ marks := by
  cases hw : ofText t with
  | operator op =>
    rw [hw] at h
    exact .inl ⟨op, ofText_eq_operator_iff.1 hw, List.mem_singleton.1 h⟩
  | leaf text =>
    obtain rfl := ofText_eq_leaf hw
    rw [hw] at h
    obtain rfl := List.mem_singleton.1 h
    exact .inr (ofText_eq_leaf_iff_not_mem_marks.1 hw)
  | blank => rw [hw] at h; cases h
  | openBracket => rw [hw] at h; cases h
  | closeBracket => rw [hw] at h; cases h

theorem Word.openBracket_not_mem_sent (t : String) : "(" ∉ (ofText t).sent := by
  intro h
  rcases of_mem_sent h with ⟨op, -, hop⟩ | hmarks
  · exact op.symbol_ne_bracket.1 hop.symm
  · exact hmarks (by decide)

theorem Word.count_symbol_sent (op : Operator) (t : String) :
    (ofText t).sent.count op.symbol = if t ∈ op.symbols then 1 else 0 := by
  by_cases ht : t ∈ op.symbols
  · rw [if_pos ht, ofText_symbol ht]
    exact List.count_singleton_self
  · rw [if_neg ht]
    refine List.count_eq_zero_of_not_mem fun hm => ?_
    rcases of_mem_sent hm with ⟨op', ht', hop⟩ | hmarks
    · have hsame : op = op' :=
        Operator.eq_of_mem_symbols op.symbol_mem_symbols (hop ▸ op'.symbol_mem_symbols)
      exact ht (hsame ▸ ht')
    · exact hmarks op.symbol_mem_marks

namespace Stack

theorem filter_symbols (ops : List Operator) :
    (ops.map Operator.symbol).filter (· ∉ marks) = [] :=
  List.filter_eq_nil_iff.2 fun s hs => by
    obtain ⟨op, -, rfl⟩ := List.mem_map.1 hs
    simpa using op.symbol_mem_marks

theorem exists_symbols_of_step (st : Stack) (hs : s ∈ marks) :
    ∃ ops : List Operator, (st.step (.ofText s)).1 = ops.map Operator.symbol := by
  cases hw : Word.ofText s with
  | blank => exact ⟨[], rfl⟩
  | openBracket => exact ⟨[], rfl⟩
  | closeBracket => exact ⟨_, rfl⟩
  | operator op => exact ⟨_, rfl⟩
  | leaf text =>
    obtain rfl := Word.ofText_eq_leaf hw
    exact absurd hs (Word.ofText_eq_leaf_iff_not_mem_marks.1 hw)

theorem filter_step (st : Stack) (s : String) :
    (st.step (.ofText s)).1.filter (· ∉ marks) = [s].filter (· ∉ marks) := by
  by_cases hs : s ∈ marks
  · obtain ⟨ops, hops⟩ := st.exists_symbols_of_step hs
    rw [hops, filter_symbols, List.filter_cons_of_neg (by simpa using hs), List.filter_nil]
  · rw [Word.ofText_eq_leaf_iff_not_mem_marks.2 hs]
    rfl

theorem filter_run (st : Stack) (texts : List String) :
    (st.run texts).filter (· ∉ marks) = texts.filter (· ∉ marks) := by
  induction texts generalizing st with
  | nil =>
    refine List.filter_eq_nil_iff.2 fun s hs => ?_
    obtain ⟨w, -, rfl⟩ := List.mem_map.1 hs
    cases w with
    | bracket => decide
    | operator op => exact fun h => of_decide_eq_true h op.symbol_mem_marks
  | cons s texts ih =>
    rw [run_cons, List.filter_append, filter_step, ih, ← List.filter_append, List.singleton_append]

theorem count_bracket_close (st : Stack) : st.close.2.count .bracket = st.count .bracket - 1 := by
  rcases st.waiting_close with h | ⟨h, hn⟩
  · have hcount := congrArg (List.count .bracket) h
    rw [List.count_append, count_bracket_waiting, List.count_cons_self] at hcount
    omega
  · rw [hn, ← h, count_bracket_waiting, List.count_nil]

theorem count_bracket_yieldTo (p : Nat) (st : Stack) :
    (st.yieldTo p).2.count .bracket = st.count .bracket := by
  have hcount := congrArg (List.count .bracket) (st.waiting_yieldTo_append p)
  rwa [List.count_append, count_bracket_waiting, Nat.zero_add] at hcount

theorem count_bracket_after (texts : List String) :
    (after [] texts).count .bracket = openBracketCount (texts.map Token.ofText) := by
  induction texts using List.reverseRecOn with
  | nil => rfl
  | append_singleton texts s ih =>
    rw [after_append, after_cons, after_nil, List.map_append, List.map_singleton,
      openBracketCount_concat, ← ih, Token.ofText]
    cases Word.ofText s with
    | blank => rfl
    | openBracket => exact List.count_cons_self
    | closeBracket => exact count_bracket_close _
    | operator op => exact (List.count_cons_of_ne (by simp)).trans (count_bracket_yieldTo _ _)
    | leaf text => rfl

theorem run_closeBracket_of_count_eq_zero {st : Stack} (h : st.count .bracket = 0)
    (rest : List String) : st.run (")" :: rest) = st.map Waiting.symbol ++ run [] rest := by
  rcases st.waiting_close with hst | ⟨hst, hempty⟩
  · rw [← hst, List.count_append, List.count_cons_self] at h
    omega
  · have hsymbols : st.map Waiting.symbol = st.close.1.map Operator.symbol := by
      conv_lhs => rw [← hst, waiting, List.map_map]
      rfl
    rw [run_cons, hsymbols, ← hempty]
    rfl

end Stack

/-- A closing bracket where no bracket is open only empties the stack: what stands before it and
what stands after it are converted each by itself. -/
theorem ofTyped_append_closeBracket {front : List String}
    (h : openBracketCount (front.map Token.ofText) = 0) (rest : List String) :
    ofTyped (front ++ ")" :: rest) = ofTyped front ++ ofTyped rest := by
  rw [← Stack.count_bracket_after] at h
  calc ofTyped (front ++ ")" :: rest)
    _ = Stack.sent [] front ++ (Stack.after [] front).run (")" :: rest) :=
        Stack.run_append [] front _
    _ = Stack.sent [] front ++ ((Stack.after [] front).map Waiting.symbol ++ ofTyped rest) := by
        rw [Stack.run_closeBracket_of_count_eq_zero h, ofTyped]
    _ = ofTyped front ++ ofTyped rest := by
        rw [ofTyped_eq_sent_append front, List.append_assoc]

theorem count_symbol_flatMap_sent (op : Operator) (texts : List String) :
    (texts.flatMap fun s => (Word.ofText s).sent).count op.symbol =
      texts.countP (· ∈ op.symbols) := by
  induction texts with
  | nil => rfl
  | cons s texts ih =>
    rw [List.flatMap_cons, List.count_append, Word.count_symbol_sent, ih, List.countP_cons,
      Nat.add_comm]
    simp only [decide_eq_true_eq]

theorem count_symbol_ofTyped (op : Operator) (texts : List String) :
    (ofTyped texts).count op.symbol = texts.countP (· ∈ op.symbols) := by
  have hbracket : op.symbol ∉ List.replicate ((Stack.after [] texts).count .bracket) "(" :=
    fun hm => op.symbol_ne_bracket.1 (List.eq_of_mem_replicate hm)
  rw [(ofTyped_perm_append texts).count_eq, List.count_append, count_symbol_flatMap_sent,
    List.count_eq_zero_of_not_mem hbracket, Nat.add_zero]

theorem count_openBracket_ofTyped (texts : List String) :
    (ofTyped texts).count "(" = openBracketCount (texts.map Token.ofText) := by
  have hsent : "(" ∉ texts.flatMap fun s => (Word.ofText s).sent := fun hm => by
    obtain ⟨t, -, ht⟩ := List.mem_flatMap.1 hm
    exact Word.openBracket_not_mem_sent t ht
  rw [(ofTyped_perm_append texts).count_eq, List.count_append, List.count_eq_zero_of_not_mem hsent,
    List.count_replicate_self, Nat.zero_add, Stack.count_bracket_after]

theorem of_mem_ofTyped {texts : List String} (h : s ∈ ofTyped texts) :
    s ∉ ["", ")"] ∧ ∀ op : Operator, s ∈ op.symbols → s = op.symbol := by
  rcases List.mem_append.1 ((ofTyped_perm_append texts).mem_iff.1 h) with hm | hm
  · obtain ⟨t, -, ht⟩ := List.mem_flatMap.1 hm
    rcases Word.of_mem_sent ht with ⟨op, -, rfl⟩ | hmarks
    · exact ⟨by cases op <;> decide,
        fun op' hs => by rw [Operator.eq_of_mem_symbols op.symbol_mem_symbols hs]⟩
    · have hsub : ["", ")"] ⊆ marks := by decide
      exact ⟨fun hs => hmarks (hsub hs),
        fun op hs => absurd (Operator.mem_marks_of_mem_symbols hs) hmarks⟩
  · obtain rfl := List.eq_of_mem_replicate hm
    exact ⟨by decide, fun op hs => absurd (Word.ofText_symbol hs) (by simp [Word.ofText])⟩

/-- The conversion loses and invents nothing, whatever the texts. What is no operator and no bracket
keeps its order; an operator is written by its canonical symbol as often as any of its symbols were
read; blank texts and closing brackets are gone; and open brackets are left as many as an entry of
the same texts would count. -/
theorem ofTyped_conserves (texts : List String) :
    (ofTyped texts).filter (· ∉ marks) = texts.filter (· ∉ marks) ∧
      (∀ op : Operator, (ofTyped texts).count op.symbol = texts.countP (· ∈ op.symbols) ∧
        ∀ s ∈ ofTyped texts, s ∈ op.symbols → s = op.symbol) ∧
      "" ∉ ofTyped texts ∧ ")" ∉ ofTyped texts ∧
      (ofTyped texts).count "(" = openBracketCount (texts.map Token.ofText) :=
  ⟨Stack.filter_run [] texts,
    fun op => ⟨count_symbol_ofTyped op texts, fun _ hs => (of_mem_ofTyped hs).2 op⟩,
    fun hs => (of_mem_ofTyped hs).1 (by decide), fun hs => (of_mem_ofTyped hs).1 (by decide),
    count_openBracket_ofTyped texts⟩

example : ofTyped ["(", "1", "+", ")", ")", "(", "", "2", "*"] = ["1", "+", "2", "×", "("] := by
  decide

end ReversePolish
end PocketCalculator
