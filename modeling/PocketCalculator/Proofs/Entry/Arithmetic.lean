import PocketCalculator.Proofs.Entry.Conforms
import PocketCalculator.Proofs.Expression.Layers
import PocketCalculator.Proofs.Expression.Meaning

/-! What an entry that was typed evaluates to: the value of its expression by the rules of
arithmetic, and a refusal where it is no expression or has no value. -/

namespace PocketCalculator
open ReversePolish
variable {ts : List Token}

def phaseAfter : Option Token.Kind → Phase
  | some .operand | some .closeBracket => .complete
  | _ => .wanting

theorem phaseAfter_eq_complete {last : Option Token.Kind}
    (h : last = some .operand ∨ last = some .closeBracket) : phaseAfter last = .complete := by
  rcases h with rfl | rfl
  · rfl
  · rfl

theorem phaseAfter_eq_wanting {last : Option Token.Kind}
    (h : last ≠ some .operand ∧ last ≠ some .closeBracket) : phaseAfter last = .wanting := by
  unfold phaseAfter
  split
  · exact absurd rfl h.1
  · exact absurd rfl h.2
  · rfl

theorem Operand.plain_not_mem_marks {o : Operand} (h : Numeral.Begun o.digits.toList) :
    o.plain ∉ marks := by
  intro hm
  -- An operand holds a digit and no mark does.
  obtain ⟨d, hd, hdigit⟩ := h.exists_digit
  have hmem : d ∈ o.plain.toList := by
    unfold plain
    split
    · exact hd
    · rw [String.toList_append]
      exact List.mem_append_right _ hd
  have hmarks : (marks.all fun s => s.toList.all fun c => !c.isDigit) = true := by decide
  have hd := List.all_eq_true.1 (List.all_eq_true.1 hmarks _ hm) d hmem
  rw [hdigit] at hd
  cases hd

theorem layers_of_ordered (ho : Ordered ts) (hb : Balanced ts)
    (hm : ∀ o, .operand o ∈ ts → o.plain ∉ marks) :
    Layers (phaseAfter (lastKind ts)) (openBracketCount ts) (ts.map Token.plain) := by
  -- From the last token, which goes into the innermost group that is still open.
  induction ts using List.reverseRecOn with
  | nil => exact .base frame_nil
  | append_singleton ts t ih =>
    obtain ⟨hfront, hcome⟩ := ordered_concat_iff.1 ho
    obtain ⟨hbal, hclose⟩ := balanced_concat_iff.1 hb
    have hl := ih hfront hbal fun o hmem => hm o (List.mem_append_left _ hmem)
    rw [lastKind_concat, openBracketCount_concat, List.map_append, List.map_singleton]
    cases t with
    | operand o =>
      rw [phaseAfter_eq_wanting (Token.Kind.mayCome_operand_iff.1 hcome)] at hl
      exact hl.append fun us hu => hu.append_leaf (hm o (by simp))
    | operator op =>
      rw [phaseAfter_eq_complete (Token.Kind.mayCome_operator_iff.1 hcome)] at hl
      exact hl.append fun us hu => hu.append_operator op.symbol_mem_symbols
    | openBracket =>
      rw [phaseAfter_eq_wanting (Token.Kind.mayCome_openBracket_iff.1 hcome)] at hl
      exact .group hl frame_nil
    | closeBracket =>
      have hn : openBracketCount ts = (openBracketCount ts - 1) + 1 := by
        have := hbal.openBracketCount_add
        have := hclose rfl
        omega
      rw [hn] at hl
      exact hl.close

namespace Entry
variable {e : Entry}

theorem Conforms.plain_not_mem_marks (h : e.Conforms) {o : Operand} (ho : .operand o ∈ e.stream) :
    o.plain ∉ marks :=
  Operand.plain_not_mem_marks (h.begun_of_mem_stream ho)

theorem Conforms.openBracketCount_stream (h : e.Conforms) :
    openBracketCount e.stream = e.openBrackets := by
  have h1 := (balanced_stream_iff.2 h.balanced).openBracketCount_add
  have h2 := h.brackets
  rw [count_stream (by decide), count_stream (by decide)] at h1
  omega

theorem Conforms.layers (h : e.Conforms) :
    Layers (phaseAfter (lastKind e.stream)) e.openBrackets e.typed := by
  have hl := layers_of_ordered h.ordered (balanced_stream_iff.2 h.balanced) fun _ =>
    h.plain_not_mem_marks
  rwa [h.openBracketCount_stream, ← typed_eq_map_stream] at hl

theorem Conforms.exists_reads (h : e.Conforms) (hb : e.openBrackets = 0) {x : Float}
    (hx : ReversePolish.evaluate (ofTyped e.typed) = .ok x) : ∃ t, Reads .expression e.typed t := by
  have hl := h.layers
  rw [hb] at hl
  have hs := surplus_of_evaluate hx
  rw [surplus_ofTyped] at hs
  exact hl.exists_reads hs

theorem Conforms.openBrackets_ne_zero_iff (h : e.Conforms) :
    e.openBrackets ≠ 0 ↔ e.tokens.count .closeBracket < e.tokens.count .openBracket := by
  have := h.brackets
  omega

theorem evaluate_eq_ok_iff {x : Float} :
    e.evaluate = .ok x ↔ e.openBrackets = 0 ∧ ReversePolish.evaluate (ofTyped e.typed) = .ok x := by
  unfold evaluate
  split
  · simp [*]
  · cases ReversePolish.evaluate (ofTyped e.typed) <;> simp_all

theorem evaluate_eq_unbalancedBrackets_iff :
    e.evaluate = .error .unbalancedBrackets ↔ e.openBrackets ≠ 0 := by
  unfold evaluate
  split
  · simp [*]
  · cases ReversePolish.evaluate (ofTyped e.typed) <;> simp_all

theorem evaluate_eq_invalidExpression_iff :
    e.evaluate = .error .invalidExpression ↔ e.openBrackets = 0 ∧ ∀ x, e.evaluate ≠ .ok x := by
  unfold evaluate
  split
  · simp [*]
  · cases ReversePolish.evaluate (ofTyped e.typed) <;> simp_all

theorem Conforms.evaluate_eq_ok_iff (h : e.Conforms) {x : Float} :
    e.evaluate = .ok x ↔ e.openBrackets = 0 ∧ ∃ t, Reads .expression e.typed t ∧ t.Yields x := by
  rw [Entry.evaluate_eq_ok_iff]
  refine and_congr_right fun hb => ⟨fun hx => ?_, ?_⟩
  · obtain ⟨t, ht⟩ := h.exists_reads hb hx
    rw [evaluate_ofTyped_of_reads ht, Tree.evaluate_eq_ok_iff] at hx
    exact ⟨t, ht, hx⟩
  · rintro ⟨t, ht, hx⟩
    rw [evaluate_ofTyped_of_reads ht, Tree.evaluate_eq_ok_iff]
    exact hx

/-- Evaluation answers in one of three ways. An open bracket comes first; after that a value is
given just where the expression can be read and the rules give its tree that value, and everything
else is invalid. -/
theorem evaluate_of_reached (h : e.Reached) :
    (e.evaluate = .error .unbalancedBrackets ↔
      e.tokens.count .closeBracket < e.tokens.count .openBracket) ∧
      (∀ x, e.evaluate = .ok x ↔ e.tokens.count .closeBracket = e.tokens.count .openBracket ∧
        ∃ t, Reads .expression e.typed t ∧ t.Yields x) ∧
      (e.evaluate = .error .invalidExpression ↔
        e.tokens.count .closeBracket = e.tokens.count .openBracket ∧
        ∀ t, Reads .expression e.typed t → ∀ x, ¬ t.Yields x) := by
  have hc := h.conforms
  have hzero : e.openBrackets = 0 ↔ e.tokens.count .closeBracket = e.tokens.count .openBracket := by
    have := hc.brackets
    omega
  refine ⟨?_, fun x => ?_, ?_⟩
  · rw [evaluate_eq_unbalancedBrackets_iff, hc.openBrackets_ne_zero_iff]
  · rw [hc.evaluate_eq_ok_iff, hzero]
  · rw [evaluate_eq_invalidExpression_iff, ← hzero]
    refine and_congr_right fun hb => ⟨fun hn t ht x hx => ?_, fun hn x hx => ?_⟩
    · exact hn x (hc.evaluate_eq_ok_iff.2 ⟨hb, t, ht, hx⟩)
    · obtain ⟨-, t, ht, hx⟩ := hc.evaluate_eq_ok_iff.1 hx
      exact hn t ht x hx

theorem evaluate_of_reached_product :
    (restore "3" .positive [.openBracket, .operand ⟨"1", .positive⟩, .operator .add,
        .operand ⟨"2", .positive⟩, .closeBracket, .operator .multiply]).Reached ∧
      (restore "3" .positive [.openBracket, .operand ⟨"1", .positive⟩, .operator .add,
        .operand ⟨"2", .positive⟩, .closeBracket, .operator .multiply]).evaluate =
        .ok ((1 + 2) * 3) := by
  have reached : (restore "3" .positive [.openBracket, .operand ⟨"1", .positive⟩, .operator .add,
      .operand ⟨"2", .positive⟩, .closeBracket, .operator .multiply]).Reached :=
    Reached.empty.keys [.openBracket, .digit '1', .operator .add, .digit '2', .closeBracket,
      .operator .multiply, .digit '3'] rfl
  have digit : ∀ s ∈ ["1", "2", "3"], Reads .factor [s] (.leaf s) :=
    fun s hs => .leaf (by revert s; decide)
  have sum := @Reads.sum ["1"] ["2"] _ _ .add "+" (by decide)
    (.term (.factor (digit "1" (by decide)))) (.factor (digit "2" (by decide)))
  have product := @Reads.product _ ["3"] _ _ .multiply "×" (by decide) (.factor (.group sum))
    (digit "3" (by decide))
  have three : Tree.Yields (.node .add "+" (.leaf "1") (.leaf "2")) (1 + 2) :=
    .node (.leaf (by decide)) (.leaf (by decide)) (by decide) (by decide)
  have nine : Tree.Yields _ ((1 + 2) * 3) :=
    @Tree.Yields.node .multiply "×" _ (.leaf "3") _ 3 three (.leaf (by decide)) (by decide)
      (by decide)
  exact ⟨reached, ((evaluate_of_reached reached).2.1 _).2 ⟨by decide, _, .term product, nine⟩⟩

end Entry
end PocketCalculator
