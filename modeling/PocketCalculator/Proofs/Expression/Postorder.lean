import PocketCalculator.Proofs.Expression.Meaning
import PocketCalculator.Proofs.Expression.Surplus
import Mathlib.Data.List.Forall2
import Mathlib.Logic.ExistsUnique

/-! Which texts have a value when they are taken in reverse Polish order. While they are read a tree
stands behind every value on the stack, and the texts that were read are those of the trees; at the
end a single tree is left, or the values that are left over are counted. -/

namespace PocketCalculator
namespace Tree

def Numeric : Tree → Prop
  | leaf text => ∃ x, number? text = some x
  | node op symbol left right => symbol ∈ op.symbols ∧ left.Numeric ∧ right.Numeric

theorem Numeric.spelled {t : Tree} (h : t.Numeric) : t.Spelled := by
  induction t with
  | leaf text =>
    obtain ⟨x, hx⟩ := h
    exact ReversePolish.Word.ofText_of_number? hx
  | node op symbol left right ihl ihr =>
    obtain ⟨hs, hl, hr⟩ := h
    exact ⟨hs, ihl hl, ihr hr⟩

/-- The texts of the trees that stand behind a stack of values. The top comes first there, and what
led to it was read last. -/
def written : List Tree → List String
  | [] => []
  | t :: trees => written trees ++ t.postorder

def Backs (t : Tree) (x : Float) : Prop := t.Numeric ∧ t.Yields x

theorem Backs.node {l r : Tree} {a b x : Float} {op : Operator} {symbol : String} (hl : l.Backs a)
    (hr : r.Backs b) (hs : symbol ∈ op.symbols) (hx : op.evaluate symbol a b = .ok x) :
    (node op symbol l r).Backs x := by
  refine ⟨⟨hs, hl.1, hr.1⟩, evaluate_eq_ok_iff.1 ?_⟩
  rw [evaluate, hl.2.evaluate, hr.2.evaluate]
  exact hx

end Tree

namespace ReversePolish
variable {values values' : List Float} {text : String} {texts : List String} {trees : List Tree}

theorem exists_trees_of_push (h : List.Forall₂ Tree.Backs trees values)
    (hp : push values text = .ok values') :
    ∃ trees', List.Forall₂ Tree.Backs trees' values' ∧
      Tree.written trees' = Tree.written trees ++ [text].filter (· ≠ "") := by
  rcases push_cases hp with ⟨rfl, rfl⟩ | ⟨x, hx, rfl⟩ | ⟨op, a, b, x, rest, hop, rfl, hx, rfl⟩
  · exact ⟨trees, h, (List.append_nil _).symm⟩
  · obtain ⟨hne, -⟩ := Word.ofText_eq_leaf_iff.1 (Word.ofText_of_number? hx)
    refine ⟨.leaf text :: trees, .cons ⟨⟨x, hx⟩, .leaf hx⟩ h, ?_⟩
    rw [List.filter_cons_of_pos (by simpa using hne)]
    rfl
  · have hs := Operator.ofSymbol?_eq_some_iff.1 hop
    obtain ⟨r, upper, hr, hupper, rfl⟩ := List.forall₂_cons_right_iff.1 h
    obtain ⟨l, lower, hl, hlower, rfl⟩ := List.forall₂_cons_right_iff.1 hupper
    refine ⟨.node op text l r :: lower, .cons (hl.node hr hs hx) hlower, ?_⟩
    rw [List.filter_cons_of_pos (by simpa using Operator.ne_empty_of_mem_symbols hs)]
    simp only [Tree.written, Tree.postorder, List.append_assoc, List.filter_nil]

theorem exists_trees_of_pushAll (h : List.Forall₂ Tree.Backs trees values)
    (hp : pushAll values texts = .ok values') :
    ∃ trees', List.Forall₂ Tree.Backs trees' values' ∧
      Tree.written trees' = Tree.written trees ++ texts.filter (· ≠ "") := by
  induction texts generalizing trees values with
  | nil =>
    cases hp
    exact ⟨trees, h, (List.append_nil _).symm⟩
  | cons text texts ih =>
    obtain ⟨next, hnext, hp⟩ := pushAll_cons_eq_ok_iff.1 hp
    obtain ⟨mid, hmid, hread⟩ := exists_trees_of_push h hnext
    obtain ⟨last, hlast, hrest⟩ := ih hmid hp
    refine ⟨last, hlast, ?_⟩
    rw [hrest, hread, List.append_assoc, ← List.filter_append, List.singleton_append]

theorem pushAll_filter (values : List Float) (texts : List String) :
    pushAll values (texts.filter (· ≠ "")) = pushAll values texts := by
  induction texts generalizing values with
  | nil => rfl
  | cons text texts ih =>
    by_cases ht : text = ""
    · subst ht
      rw [List.filter_cons_of_neg (by simp), ih]
      rfl
    · rw [List.filter_cons_of_pos (by simpa using ht), pushAll, pushAll]
      simp only [ih]

theorem evaluate_filter (texts : List String) :
    evaluate (texts.filter (· ≠ "")) = evaluate texts := by
  rw [evaluate, pushAll_filter, evaluate]

theorem evaluate_eq_ok_iff_exists_tree {x : Float} :
    evaluate texts = .ok x ↔
      ∃ t : Tree, t.Numeric ∧ t.postorder = texts.filter (· ≠ "") ∧ t.Yields x := by
  constructor
  · intro h
    obtain ⟨trees, htrees, hread⟩ :=
      exists_trees_of_pushAll List.Forall₂.nil (evaluate_eq_ok_iff_pushAll.1 h)
    obtain ⟨t, rest, ⟨hn, hy⟩, hrest, rfl⟩ := List.forall₂_cons_right_iff.1 htrees
    obtain rfl := List.forall₂_nil_right_iff.1 hrest
    exact ⟨t, hn, hread, hy⟩
  · rintro ⟨t, hn, hp, hy⟩
    rw [← evaluate_filter, ← hp, evaluate_postorder hn.spelled]
    exact hy.evaluate

def isNumber (s : String) : Bool := (number? s).isSome

def isOperator (s : String) : Bool := (Operator.ofSymbol? s).isSome

theorem weight_of_push (h : push values text = .ok values') :
    (Word.ofText text).weight = [text].countP isNumber - [text].countP isOperator := by
  rw [List.countP_singleton, List.countP_singleton, isNumber, isOperator]
  rcases push_cases h with ⟨rfl, -⟩ | ⟨x, hx, -⟩ | ⟨op, a, b, x, rest, hop, -⟩
  · decide
  · have hleaf := Word.ofText_of_number? hx
    rw [hleaf, hx, (Word.ofText_eq_leaf_iff.1 hleaf).2.2.2]
    rfl
  · have hs := Operator.ofSymbol?_eq_some_iff.1 hop
    rw [Word.ofText_symbol hs, Operator.number?_symbol hs, hop]
    rfl

theorem surplus_of_pushAll (h : pushAll values texts = .ok values') :
    surplus texts = texts.countP isNumber - texts.countP isOperator := by
  induction texts generalizing values with
  | nil => rfl
  | cons text texts ih =>
    obtain ⟨next, hnext, h⟩ := pushAll_cons_eq_ok_iff.1 h
    have hsplit : text :: texts = [text] ++ texts := rfl
    rw [surplus_cons, weight_of_push hnext, ih h, hsplit, List.countP_append, List.countP_append]
    omega

theorem evaluate_eq_leftoverValues_iff {n : Nat} :
    evaluate texts = .error (.leftoverValues n) ↔
      n ≠ 1 ∧ ∃ values, pushAll [] texts = .ok values ∧ values.length = n := by
  constructor
  · intro h
    obtain ⟨values, hvalues, hlength, hn⟩ := pushAll_of_leftoverValues h
    exact ⟨hn, values, hvalues, hlength⟩
  · rintro ⟨hn, values, hvalues, rfl⟩
    rw [evaluate, hvalues]
    rcases values with - | ⟨x, - | ⟨y, rest⟩⟩
    · rfl
    · exact absurd rfl hn
    · rfl

/-- Texts have a value if, blank ones apart, they are the post-order of a tree of numbers that has
it. There is one such tree only, and the value is finite. If all texts can be used and yet there is
no value, the report says how many more numbers than operators there are. -/
theorem value_of_postorder (texts : List String) :
    (∀ x, evaluate texts = .ok x ↔
      ∃ t : Tree, t.Numeric ∧ t.postorder = texts.filter (· ≠ "") ∧ t.Yields x) ∧
      (∀ x, evaluate texts = .ok x → x.isFinite = true ∧
        ∃! t : Tree, t.Numeric ∧ t.postorder = texts.filter (· ≠ "")) ∧
      ∀ n : Nat, evaluate texts = .error (.leftoverValues n) ↔
        (∃ values, pushAll [] texts = .ok values) ∧ n ≠ 1 ∧
          (n : Int) = texts.countP isNumber - texts.countP isOperator := by
  have hcount : ∀ values, pushAll [] texts = .ok values →
      (values.length : Int) = texts.countP isNumber - texts.countP isOperator := by
    intro values hvalues
    have hlength := length_of_pushAll hvalues
    rw [surplus_of_pushAll hvalues] at hlength
    simpa using hlength
  refine ⟨fun x => evaluate_eq_ok_iff_exists_tree, fun x hx => ⟨isFinite_of_evaluate hx, ?_⟩,
    fun n => ?_⟩
  · obtain ⟨t, hn, hp, -⟩ := evaluate_eq_ok_iff_exists_tree.1 hx
    refine ⟨t, ⟨hn, hp⟩, ?_⟩
    rintro t' ⟨hn', hp'⟩
    exact Tree.eq_of_postorder_eq hn'.spelled hn.spelled (hp'.trans hp.symm)
  · rw [evaluate_eq_leftoverValues_iff]
    constructor
    · rintro ⟨hn, values, hvalues, rfl⟩
      exact ⟨⟨values, hvalues⟩, hn, hcount values hvalues⟩
    · rintro ⟨⟨values, hvalues⟩, hn, hdiff⟩
      have := hcount values hvalues
      exact ⟨hn, values, hvalues, by omega⟩

theorem value_of_postorder_quotient :
    evaluate ["8", "", "2", "/", "3", "-"] = .ok (8 / 2 - 3) ∧
      (8 / 2 - 3 : Float).isFinite = true ∧
      (∃! t : Tree, t.Numeric ∧ t.postorder = ["8", "", "2", "/", "3", "-"].filter (· ≠ "")) ∧
      evaluate ["1", "2", "3", "+"] = .error (.leftoverValues 2) := by
  have numeric : (Tree.node .subtract "-" (.node .divide "/" (.leaf "8") (.leaf "2"))
      (.leaf "3")).Numeric :=
    ⟨by decide, ⟨by decide, ⟨8, by decide⟩, ⟨2, by decide⟩⟩, ⟨3, by decide⟩⟩
  have four : Tree.Yields (.node .divide "/" (.leaf "8") (.leaf "2")) (8 / 2) :=
    .node (.leaf (by decide)) (.leaf (by decide)) (by decide) (by decide)
  have one : Tree.Yields (.node .subtract "-" _ (.leaf "3")) (8 / 2 - 3) :=
    .node four (.leaf (by decide)) (by decide) (by decide)
  obtain ⟨value, unique, -⟩ := value_of_postorder ["8", "", "2", "/", "3", "-"]
  have evaluated := (value (8 / 2 - 3)).2 ⟨_, numeric, rfl, one⟩
  obtain ⟨-, -, leftover⟩ := value_of_postorder ["1", "2", "3", "+"]
  exact ⟨evaluated, (unique _ evaluated).1, (unique _ evaluated).2,
    (leftover 2).2 ⟨⟨_, rfl⟩, by decide, by decide⟩⟩

end ReversePolish
end PocketCalculator
