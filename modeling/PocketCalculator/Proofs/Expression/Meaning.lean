import PocketCalculator.Expression.Grammar

/-! What an expression is worth, by rules alone: `Tree.Yields` for values and `Tree.Fails` for
faults. An expression is read as one tree only, and converting and evaluating its texts follows the
rules for that tree, wherever blank texts stand between them. -/

namespace PocketCalculator
namespace Tree

inductive Yields : Tree → Float → Prop where
  | leaf {text : String} {x : Float} : number? text = some x → Yields (leaf text) x
  | node {op : Operator} {symbol : String} {l r : Tree} {a b : Float} : Yields l a → Yields r b →
      (op = .divide → (b == 0) = false) → (op.apply a b).isFinite = true →
        Yields (node op symbol l r) (op.apply a b)

inductive Fails : Tree → Fault → Prop where
  | leaf {text : String} : number? text = none → Fails (leaf text) (.unknownToken text)
  | left {op : Operator} {symbol : String} {l r : Tree} {f : Fault} :
      Fails l f → Fails (node op symbol l r) f
  | right {op : Operator} {symbol : String} {l r : Tree} {a : Float} {f : Fault} :
      Yields l a → Fails r f → Fails (node op symbol l r) f
  | zero {symbol : String} {l r : Tree} {a b : Float} : Yields l a → Yields r b → (b == 0) = true →
      Fails (node .divide symbol l r) .divisionByZero
  | range {op : Operator} {symbol : String} {l r : Tree} {a b : Float} : Yields l a → Yields r b →
      (op = .divide → (b == 0) = false) → (op.apply a b).isFinite = false →
      Fails (node op symbol l r) (.nonFiniteResult symbol)

end Tree

theorem Operator.evaluate_of_finite {op : Operator} {a b : Float} (symbol : String)
    (hz : op = .divide → (b == 0) = false) (hf : (op.apply a b).isFinite = true) :
    op.evaluate symbol a b = .ok (op.apply a b) := by
  have hn : ¬ (op = .divide ∧ (b == 0) = true) := fun h => by simp [hz h.1] at h
  rw [evaluate, if_neg hn, if_pos hf]

theorem Operator.evaluate_of_infinite {op : Operator} {a b : Float} (symbol : String)
    (hz : op = .divide → (b == 0) = false) (hf : (op.apply a b).isFinite = false) :
    op.evaluate symbol a b = .error (.nonFiniteResult symbol) := by
  have hn : ¬ (op = .divide ∧ (b == 0) = true) := fun h => by simp [hz h.1] at h
  rw [evaluate, if_neg hn, if_neg (by rw [hf]; decide)]

theorem Operator.evaluate_of_zero {a b : Float} (symbol : String) (hz : (b == 0) = true) :
    divide.evaluate symbol a b = .error .divisionByZero := by
  rw [evaluate, if_pos ⟨rfl, hz⟩]

namespace Tree

theorem Yields.evaluate {t : Tree} {x : Float} (h : t.Yields x) : t.evaluate = .ok x := by
  induction h with
  | leaf hx => simp only [Tree.evaluate, hx]
  | @node op symbol l r a b _ _ hz hf ihl ihr =>
    rw [Tree.evaluate, ihl, ihr]
    exact Operator.evaluate_of_finite symbol hz hf

theorem Fails.evaluate {t : Tree} {f : Fault} (h : t.Fails f) : t.evaluate = .error f := by
  induction h with
  | leaf hx => simp only [Tree.evaluate, hx]
  | left _ ih => rw [Tree.evaluate, ih]; rfl
  | right hl _ ih => rw [Tree.evaluate, hl.evaluate, ih]; rfl
  | zero hl hr hz =>
    rw [Tree.evaluate, hl.evaluate, hr.evaluate]
    exact Operator.evaluate_of_zero _ hz
  | range hl hr hz hf =>
    rw [Tree.evaluate, hl.evaluate, hr.evaluate]
    exact Operator.evaluate_of_infinite _ hz hf

theorem yields_or_fails (t : Tree) : (∃ x, t.Yields x) ∨ ∃ f, t.Fails f := by
  induction t with
  | leaf text =>
    cases hn : number? text with
    | some x => exact .inl ⟨x, .leaf hn⟩
    | none => exact .inr ⟨_, .leaf hn⟩
  | node op symbol l r ihl ihr =>
    obtain ⟨a, ha⟩ | ⟨f, hf⟩ := ihl
    · obtain ⟨b, hb⟩ | ⟨f, hf⟩ := ihr
      · by_cases hz : op = .divide ∧ (b == 0) = true
        · obtain ⟨rfl, hz⟩ := hz
          exact .inr ⟨_, .zero ha hb hz⟩
        · have hz : op = .divide → (b == 0) = false :=
            fun ho => Bool.eq_false_iff.2 fun hb => hz ⟨ho, hb⟩
          cases hf : (op.apply a b).isFinite with
          | true => exact .inl ⟨_, .node ha hb hz hf⟩
          | false => exact .inr ⟨_, .range ha hb hz hf⟩
      · exact .inr ⟨f, .right ha hf⟩
    · exact .inr ⟨f, .left hf⟩

/-- Reads a post-order back. The trees that are still without a parent wait on a stack, the last one
on top. -/
def rebuild : List Tree → List String → List Tree
  | stack, [] => stack
  | stack, s :: rest =>
    match Operator.ofSymbol? s, stack with
    | some op, r :: l :: stack => rebuild (node op s l r :: stack) rest
    | _, stack => rebuild (leaf s :: stack) rest

theorem rebuild_postorder_append {t : Tree} (h : t.Spelled) (stack : List Tree)
    (rest : List String) : rebuild stack (t.postorder ++ rest) = rebuild (t :: stack) rest := by
  -- For every stack, since a right operand is read back on top of the left one.
  induction t generalizing stack rest with
  | leaf text =>
    obtain ⟨-, -, -, hs⟩ := ReversePolish.Word.ofText_eq_leaf_iff.1 h
    rw [postorder, List.singleton_append, rebuild]
    simp [hs]
  | node op symbol l r ihl ihr =>
    obtain ⟨hs, hl, hr⟩ := h
    rw [postorder, List.append_assoc, List.append_assoc, ihl hl, ihr hr, List.singleton_append,
      rebuild]
    exact Operator.ofSymbol?_eq_some_iff.2 hs

theorem eq_of_postorder_eq {t t' : Tree} (h : t.Spelled) (h' : t'.Spelled)
    (he : t.postorder = t'.postorder) : t = t' := by
  have ht := rebuild_postorder_append h [] []
  rw [he, rebuild_postorder_append h' [] []] at ht
  exact (List.head_eq_of_cons_eq ht).symm

theorem evaluate_eq_ok_iff {t : Tree} {x : Float} : t.evaluate = .ok x ↔ t.Yields x := by
  refine ⟨fun h => ?_, Yields.evaluate⟩
  obtain ⟨y, hy⟩ | ⟨f, hf⟩ := t.yields_or_fails
  · have hxy : x = y := Except.ok.inj (h.symm.trans hy.evaluate)
    exact hxy ▸ hy
  · exact absurd (h.symm.trans hf.evaluate) (by simp)

theorem evaluate_eq_error_iff {t : Tree} {f : Fault} : t.evaluate = .error f ↔ t.Fails f := by
  refine ⟨fun h => ?_, Fails.evaluate⟩
  obtain ⟨y, hy⟩ | ⟨g, hg⟩ := t.yields_or_fails
  · exact absurd (h.symm.trans hy.evaluate) (by simp)
  · have hfg : f = g := Except.error.inj (h.symm.trans hg.evaluate)
    exact hfg ▸ hg

end Tree

theorem Reads.eq_tree {ts : List String} {t t' : Tree} (h : Reads .expression ts t)
    (h' : Reads .expression ts t') : t = t' :=
  Tree.eq_of_postorder_eq h.spelled h'.spelled
    ((ReversePolish.ofTyped_reads h).symm.trans (ReversePolish.ofTyped_reads h'))

namespace ReversePolish

theorem ofTyped_filter (texts : List String) : ofTyped (texts.filter (· ≠ "")) = ofTyped texts :=
  Stack.run_filter [] texts

theorem evaluate_ofTyped_of_reads {texts : List String} {t : Tree} (h : Reads .expression texts t) :
    evaluate (ofTyped texts) = t.evaluate := by rw [ofTyped_reads h, evaluate_postorder h.spelled]

/-- Conversion writes the one tree of an expression in post-order, and evaluating that comes to what
the rules say of the tree, value or fault. -/
theorem meaning_of_reads {texts : List String} {t : Tree}
    (h : Reads .expression (texts.filter (· ≠ "")) t) :
    (∀ t', Reads .expression (texts.filter (· ≠ "")) t' → t' = t) ∧ ofTyped texts = t.postorder ∧
      (∀ x, evaluate (ofTyped texts) = .ok x ↔ t.Yields x) ∧
        ∀ f, evaluate (ofTyped texts) = .error f ↔ t.Fails f := by
  have hp : ofTyped texts = t.postorder := (ofTyped_filter texts).symm.trans (ofTyped_reads h)
  have he : evaluate (ofTyped texts) = t.evaluate := by
    rw [← ofTyped_filter, evaluate_ofTyped_of_reads h]
  refine ⟨fun t' ht => ht.eq_tree h, hp, fun x => ?_, fun f => ?_⟩
  · rw [he, Tree.evaluate_eq_ok_iff]
  · rw [he, Tree.evaluate_eq_error_iff]

theorem meaning_of_reads_value_and_fault :
    (Reads .expression (["3", "+", "5", "×", "(", "2", "-", "8", ")"].filter (· ≠ ""))
        (.node .add "+" (.leaf "3")
          (.node .multiply "×" (.leaf "5") (.node .subtract "-" (.leaf "2") (.leaf "8")))) ∧
      ofTyped ["3", "+", "5", "×", "(", "2", "-", "8", ")"] =
        ["3", "5", "2", "8", "-", "×", "+"] ∧
      evaluate (ofTyped ["3", "+", "5", "×", "(", "2", "-", "8", ")"]) = .ok (-27)) ∧
    Reads .expression (["8", "", "-", "(", "2", "*", "3", ")", "/", "0"].filter (· ≠ ""))
        (.node .subtract "-" (.leaf "8")
          (.node .divide "÷" (.node .multiply "×" (.leaf "2") (.leaf "3")) (.leaf "0"))) ∧
      ofTyped ["8", "", "-", "(", "2", "*", "3", ")", "/", "0"] =
        ["8", "2", "3", "×", "0", "÷", "-"] ∧
      evaluate (ofTyped ["8", "", "-", "(", "2", "*", "3", ")", "/", "0"]) =
        .error .divisionByZero := by
  have digit : ∀ s ∈ ["0", "2", "3", "5", "8"], Reads .factor [s] (.leaf s) :=
    fun s hs => .leaf (by revert s; decide)
  constructor
  · have difference := @Reads.sum ["2"] ["8"] _ _ .subtract "-" (by decide)
      (.term (.factor (digit "2" (by decide)))) (.factor (digit "8" (by decide)))
    have product := @Reads.product ["5"] _ _ _ .multiply "×" (by decide)
      (.factor (digit "5" (by decide))) (.group difference)
    have reads :
        Reads .expression (["3", "+", "5", "×", "(", "2", "-", "8", ")"].filter (· ≠ "")) _ :=
      @Reads.sum ["3"] _ _ _ .add "+" (by decide) (.term (.factor (digit "3" (by decide)))) product
    have inner : Tree.Yields (.node .subtract "-" (.leaf "2") (.leaf "8")) (2 - 8) :=
      .node (.leaf (by decide)) (.leaf (by decide)) (by decide) (by decide +kernel)
    have right : Tree.Yields (.node .multiply "×" (.leaf "5") _) (5 * (2 - 8)) :=
      .node (.leaf (by decide)) inner (by decide) (by decide +kernel)
    have whole : Tree.Yields (.node .add "+" (.leaf "3") _) (3 + 5 * (2 - 8)) :=
      .node (.leaf (by decide)) right (by decide) (by decide +kernel)
    have total : (3 + 5 * (2 - 8) : Float) = -27 := by decide +kernel
    obtain ⟨-, hpost, hvalue, -⟩ := meaning_of_reads reads
    exact ⟨reads, hpost, (hvalue _).2 (total ▸ whole)⟩
  · have product := @Reads.product ["2"] ["3"] _ _ .multiply "*" (by decide)
      (.factor (digit "2" (by decide))) (digit "3" (by decide))
    have quotient := @Reads.product _ ["0"] _ _ .divide "/" (by decide)
      (.factor (.group (.term product))) (digit "0" (by decide))
    have reads :
        Reads .expression (["8", "", "-", "(", "2", "*", "3", ")", "/", "0"].filter (· ≠ "")) _ :=
      @Reads.sum ["8"] _ _ _ .subtract "-" (by decide)
        (.term (.factor (digit "8" (by decide)))) quotient
    have six : Tree.Yields (.node .multiply "×" (.leaf "2") (.leaf "3")) (2 * 3) :=
      .node (.leaf (by decide)) (.leaf (by decide)) (by decide) (by decide)
    have zero : Tree.Fails
        (.node .divide "÷" (.node .multiply "×" (.leaf "2") (.leaf "3")) (.leaf "0"))
        .divisionByZero := .zero (b := 0) six (.leaf (by decide)) (by decide)
    have eight : Tree.Yields (.leaf "8") 8 := .leaf (by decide)
    obtain ⟨-, hpost, -, hfault⟩ := meaning_of_reads reads
    exact ⟨reads, hpost, (hfault _).2 (.right eight zero)⟩

end ReversePolish
end PocketCalculator
