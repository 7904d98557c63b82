import PocketCalculator.Expression.Evaluation
import PocketCalculator.Expression.ReversePolish

/-! Expressions as trees: what an order of texts means. The texts of a tree in post-order are its
reverse Polish order, and evaluating them on a stack is evaluating the tree from its leaves up, the
left branch first. -/

namespace PocketCalculator

inductive Tree where
  | leaf (text : String)
  | node (op : Operator) (symbol : String) (left right : Tree)
  deriving DecidableEq, Repr

namespace Tree

def postorder : Tree → List String
  | leaf text => [text]
  | node _ symbol left right => left.postorder ++ right.postorder ++ [symbol]

def evaluate : Tree → Except Fault Float
  | leaf text => match number? text with
    | some x => .ok x
    | none => .error (.unknownToken text)
  | node op symbol left right =>
    left.evaluate.bind fun a => right.evaluate.bind fun b => op.evaluate symbol a b

/-- Leaves are neither blank nor brackets nor operators, and every operator is written by one of its
symbols. -/
def Spelled : Tree → Prop
  | leaf text => ReversePolish.Word.ofText text = .leaf text
  | node op symbol left right => symbol ∈ op.symbols ∧ left.Spelled ∧ right.Spelled

end Tree

theorem Operator.number?_symbol {op : Operator} {s : String} (h : s ∈ op.symbols) :
    number? s = none := by
  have all : ∀ op : Operator, ∀ s ∈ op.symbols, number? s = none := by
    intro op
    cases op <;> decide
  exact all op s h

theorem Operator.ne_empty_of_mem_symbols {op : Operator} {s : String} (h : s ∈ op.symbols) :
    s ≠ "" := by
  rintro rfl
  cases op <;> simp [symbols] at h

namespace ReversePolish

theorem Word.ofText_eq_leaf_iff {s : String} :
    Word.ofText s = .leaf s ↔ s ≠ "" ∧ s ≠ "(" ∧ s ≠ ")" ∧ Operator.ofSymbol? s = none := by
  unfold Word.ofText
  split
  · simp_all
  · split
    · simp_all
    · split
      · simp_all
      · cases Operator.ofSymbol? s <;> simp_all

theorem Word.ofText_symbol {op : Operator} {s : String} (h : s ∈ op.symbols) :
    Word.ofText s = .operator op := by
  have h1 : s ≠ "" := Operator.ne_empty_of_mem_symbols h
  have h2 : s ≠ "(" := by rintro rfl; cases op <;> simp [Operator.symbols] at h
  have h3 : s ≠ ")" := by rintro rfl; cases op <;> simp [Operator.symbols] at h
  simp only [Word.ofText, if_neg h1, if_neg h2, if_neg h3, Operator.ofSymbol?_eq_some_iff.2 h]

theorem push_symbol {op : Operator} {s : String} (h : s ∈ op.symbols) (a b : Float)
    (values : List Float) : push (b :: a :: values) s = (op.evaluate s a b).map (· :: values) := by
  simp only [push, if_neg (Operator.ne_empty_of_mem_symbols h), Operator.number?_symbol h,
    Operator.ofSymbol?_eq_some_iff.2 h]

theorem pushAll_postorder {t : Tree} (h : t.Spelled) (values : List Float) (rest : List String) :
    pushAll values (t.postorder ++ rest) = t.evaluate.bind fun x => pushAll (x :: values) rest := by
  induction t generalizing values rest with
  | leaf text =>
    obtain ⟨h1, -, -, h2⟩ := Word.ofText_eq_leaf_iff.1 h
    simp only [Tree.postorder, List.cons_append, List.nil_append, pushAll, push, if_neg h1,
      Tree.evaluate]
    cases number? text with
    | some x => rfl
    | none => simp only [h2]; rfl
  | node op symbol left right ihl ihr =>
    obtain ⟨hs, hl, hr⟩ := h
    simp only [Tree.postorder, List.append_assoc, ihl hl, ihr hr, Tree.evaluate]
    cases left.evaluate with
    | error f => rfl
    | ok a =>
      cases right.evaluate with
      | error f => rfl
      | ok b =>
        simp only [Except.bind, List.cons_append, List.nil_append, pushAll, push_symbol hs]
        cases op.evaluate symbol a b <;> rfl

theorem evaluate_postorder {t : Tree} (h : t.Spelled) : evaluate t.postorder = t.evaluate := by
  have hp := pushAll_postorder h [] []
  rw [List.append_nil] at hp
  rw [evaluate, hp]
  cases t.evaluate <;> rfl

end ReversePolish
end PocketCalculator
