import PocketCalculator.Expression.Grammar
import PocketCalculator.Proofs.Expression.Values

/-! The surplus of operands over operators. Conversion keeps it, and a stack of values holds as many
values as the surplus of the texts that went onto it. -/

namespace PocketCalculator.ReversePolish

def Word.weight : Word → Int
  | leaf _ => 1
  | operator _ => -1
  | _ => 0

def surplus : List String → Int
  | [] => 0
  | s :: texts => (Word.ofText s).weight + surplus texts

@[simp] theorem surplus_nil : surplus [] = 0 := rfl

@[simp] theorem surplus_cons (s : String) (texts : List String) :
    surplus (s :: texts) = (Word.ofText s).weight + surplus texts := rfl

@[simp] theorem surplus_append (front rest : List String) :
    surplus (front ++ rest) = surplus front + surplus rest := by
  induction front with
  | nil => exact (Int.zero_add _).symm
  | cons s front ih => rw [List.cons_append, surplus_cons, surplus_cons, ih, Int.add_assoc]

theorem Word.ofText_eq_leaf {s text : String} (h : ofText s = .leaf text) : text = s := by
  unfold ofText at h
  split at h
  · cases h
  · split at h
    · cases h
    · split at h
      · cases h
      · split at h
        · cases h
        · cases h; rfl

namespace Stack

theorem waiting_yieldTo_append (p : Nat) (st : Stack) :
    waiting (st.yieldTo p).1 ++ (st.yieldTo p).2 = st := by
  induction st with
  | nil => rfl
  | cons w st ih =>
    cases w with
    | bracket => rfl
    | operator op =>
      rw [yieldTo]
      split
      · exact congrArg (Waiting.operator op :: ·) ih
      · rfl

theorem waiting_close (st : Stack) :
    waiting st.close.1 ++ .bracket :: st.close.2 = st ∨
      waiting st.close.1 = st ∧ st.close.2 = [] := by
  induction st with
  | nil => exact .inr ⟨rfl, rfl⟩
  | cons w st ih =>
    cases w with
    | bracket => exact .inl rfl
    | operator op =>
      rcases ih with ih | ⟨ih, hn⟩
      · exact .inl (congrArg (Waiting.operator op :: ·) ih)
      · exact .inr ⟨congrArg (Waiting.operator op :: ·) ih, hn⟩

def surplus (st : Stack) : Int := ReversePolish.surplus (st.map Waiting.symbol)

theorem surplus_bracket (st : Stack) : surplus (.bracket :: st) = st.surplus := by
  rw [surplus, List.map_cons, surplus_cons, surplus]
  exact Int.zero_add _

theorem surplus_operator (op : Operator) (st : Stack) :
    surplus (.operator op :: st) = -1 + st.surplus := by
  rw [surplus, List.map_cons, surplus_cons, surplus, Waiting.symbol,
    Word.ofText_symbol op.symbol_mem_symbols]
  rfl

theorem surplus_append (st st' : Stack) : surplus (st ++ st') = st.surplus + st'.surplus := by
  rw [surplus, List.map_append, ReversePolish.surplus_append]
  rfl

theorem surplus_waiting (ops : List Operator) :
    (waiting ops).surplus = ReversePolish.surplus (ops.map Operator.symbol) := by
  rw [surplus, waiting, List.map_map]
  rfl

theorem surplus_step (st : Stack) (s : String) :
    ReversePolish.surplus (st.step (.ofText s)).1 + surplus (st.step (.ofText s)).2 =
      st.surplus + (Word.ofText s).weight := by
  cases hw : Word.ofText s with
  | blank => simp [step, Word.weight]
  | openBracket => simp [step, Word.weight, surplus_bracket]
  | closeBracket =>
    -- Brackets weigh nothing, so that it does not matter whether an open one was there to be
    -- closed.
    simp only [step, Word.weight, ← surplus_waiting]
    rcases st.waiting_close with h | ⟨h, hn⟩
    · rw [← surplus_bracket st.close.2, ← surplus_append, h, Int.add_zero]
    · rw [h, hn]
      rfl
  | operator op =>
    simp only [step, Word.weight, ← surplus_waiting, surplus_operator]
    have h := congrArg surplus (st.waiting_yieldTo_append op.precedence)
    rw [surplus_append] at h
    omega
  | leaf text =>
    obtain rfl := Word.ofText_eq_leaf hw
    simp [step, Word.weight, hw]
    omega

theorem surplus_run (st : Stack) (texts : List String) :
    ReversePolish.surplus (st.run texts) = st.surplus + ReversePolish.surplus texts := by
  induction texts generalizing st with
  | nil => rw [run, surplus_nil, Int.add_zero, surplus]
  | cons s rest ih =>
    have := st.surplus_step s
    rw [run_cons, ReversePolish.surplus_append, ih, surplus_cons]
    omega

end Stack

theorem surplus_ofTyped (texts : List String) : surplus (ofTyped texts) = surplus texts := by
  rw [ofTyped, Stack.surplus_run, Stack.surplus, List.map_nil, surplus_nil, Int.zero_add]

theorem Word.ofText_of_number? {s : String} {x : Float} (h : number? s = some x) :
    ofText s = .leaf s := by
  refine ofText_eq_leaf_iff_not_mem_marks.2 fun hm => ?_
  have hnone : ∀ s ∈ marks, number? s = none := by decide
  rw [hnone s hm] at h
  cases h

theorem length_of_push {values values' : List Float} {s : String}
    (h : push values s = .ok values') :
    (values'.length : Int) = values.length + (Word.ofText s).weight := by
  rcases push_cases h with ⟨rfl, rfl⟩ | ⟨x, hx, rfl⟩ | ⟨op, a, b, x, rest, hop, rfl, -, rfl⟩
  · exact (Int.add_zero _).symm
  · rw [Word.ofText_of_number? hx]
    rfl
  · rw [Word.ofText_symbol (Operator.ofSymbol?_eq_some_iff.1 hop), Word.weight]
    simp only [List.length_cons]
    omega

theorem length_of_pushAll {values values' : List Float} {texts : List String}
    (h : pushAll values texts = .ok values') :
    (values'.length : Int) = values.length + surplus texts := by
  induction texts generalizing values with
  | nil =>
    cases h
    rw [surplus_nil, Int.add_zero]
  | cons s rest ih =>
    obtain ⟨next, hnext, h⟩ := pushAll_cons_eq_ok_iff.1 h
    have h1 := length_of_push hnext
    have h2 := ih h
    rw [surplus_cons]
    omega

theorem surplus_of_evaluate {texts : List String} {x : Float} (h : evaluate texts = .ok x) :
    surplus texts = 1 := by
  have hl := length_of_pushAll (evaluate_eq_ok_iff_pushAll.1 h)
  simpa using hl.symm

end PocketCalculator.ReversePolish
