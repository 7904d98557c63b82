import PocketCalculator.Proofs.Expression.Reordering
import Mathlib.Data.List.Chain

/-! The order in which operators wait. Between two brackets an operator only ever waits above one
that binds less tightly, whatever texts came. As there are two degrees of binding, no more than two
operators wait between two brackets, and the stack holds at most two for each of its brackets and
two below them. -/

namespace PocketCalculator.ReversePolish

/-- Whether the first may wait right above the second. Only two operators can stand in each other's
way. -/
def Waiting.MayRestOn : Waiting → Waiting → Prop
  | operator upper, operator lower => lower.precedence < upper.precedence
  | _, _ => True

namespace Stack
variable {st : Stack} {ops : List Operator}

def Rising (st : Stack) : Prop := st.IsChain Waiting.MayRestOn

theorem rising_nil : Rising [] := List.isChain_nil

theorem yieldTo_suffix (p : Nat) (st : Stack) : (st.yieldTo p).2 <:+ st :=
  ⟨_, st.waiting_yieldTo_append p⟩

theorem waiting_close_prefix (st : Stack) : waiting st.close.1 <+: st := by
  rcases st.waiting_close with h | ⟨h, -⟩
  · exact ⟨_, h⟩
  · exact ⟨[], by rw [List.append_nil, h]⟩

theorem close_suffix (st : Stack) : st.close.2 <:+ st := by
  rcases st.waiting_close with h | ⟨-, hn⟩
  · exact ⟨waiting st.close.1 ++ [.bracket], by rwa [List.append_assoc, List.singleton_append]⟩
  · exact hn ▸ List.nil_suffix

theorem precedence_lt_of_yieldTo {p : Nat} {op : Operator} {rest : Stack}
    (h : (st.yieldTo p).2 = .operator op :: rest) : op.precedence < p := by
  induction st with
  | nil => cases h
  | cons w st ih =>
    cases w with
    | bracket => cases h
    | operator top =>
      rw [yieldTo] at h
      split at h
      · exact ih h
      · cases h
        omega

theorem Rising.step (h : st.Rising) (w : Word) : (st.step w).2.Rising := by
  cases w with
  | blank => exact h
  | leaf text => exact h
  | openBracket => exact h.cons fun _ _ => trivial
  | closeBracket => exact h.suffix st.close_suffix
  | operator op =>
    refine List.IsChain.cons (h.suffix (st.yieldTo_suffix op.precedence)) fun w hw => ?_
    cases w with
    | bracket => trivial
    | operator below =>
      obtain ⟨rest, hrest⟩ := List.head?_eq_some_iff.1 hw
      exact precedence_lt_of_yieldTo hrest

theorem Rising.after (h : st.Rising) (texts : List String) : (st.after texts).Rising := by
  induction texts generalizing st with
  | nil => exact h
  | cons s texts ih => exact ih (h.step (.ofText s))

theorem Rising.pairwise (h : st.Rising) (hops : waiting ops <:+: st) :
    (ops.map Operator.precedence).Pairwise (· > ·) := by
  obtain ⟨above, below, rfl⟩ := hops
  have hchain : (waiting ops).IsChain Waiting.MayRestOn := h.left_of_append.right_of_append
  rw [waiting, List.isChain_map] at hchain
  rw [← List.isChain_iff_pairwise, List.isChain_map]
  exact hchain

theorem length_le_two (h : (ops.map Operator.precedence).Pairwise (· > ·)) : ops.length ≤ 2 := by
  match ops with
  | [] => simp
  | [_] => simp
  | [_, _] => simp
  | top :: middle :: bottom :: _ =>
    simp only [List.map_cons, List.pairwise_cons, List.mem_cons] at h
    have hupper : top.precedence > middle.precedence := h.1 _ (.inl rfl)
    have hlower : middle.precedence > bottom.precedence := h.2.1 _ (.inl rfl)
    have := top.precedence_le_two
    have := bottom.precedence_pos
    omega

theorem Rising.length_close_le (h : st.Rising) : st.close.1.length ≤ 2 :=
  length_le_two (h.pairwise st.waiting_close_prefix.isInfix)

theorem Rising.length_operators_le (h : st.Rising) :
    st.operators.length ≤ 2 * st.count .bracket + st.close.1.length := by
  -- A bracket hides the operators right below it, of which there are at most two.
  induction st with
  | nil => exact Nat.zero_le _
  | cons w st ih =>
    have hst : Rising st := h.tail
    have hi := ih hst
    cases w with
    | bracket =>
      have hclose := hst.length_close_le
      rw [operators, close, List.count_cons_self, List.length_nil]
      omega
    | operator op =>
      rw [operators, close, List.count_cons_of_ne (by simp), List.length_cons, List.length_cons]
      omega

end Stack

/-- The stack of the conversion after any front part of any texts. Operators that wait next to each
other, with no bracket between, bind strictly more tightly from the bottom to the top; there are at
most two of them; and altogether at most two wait for each bracket and two below them all. -/
theorem stack_rising (front rest : List String) :
    ofTyped (front ++ rest) = Stack.sent [] front ++ (Stack.after [] front).run rest ∧
      (∀ ops, Stack.waiting ops <:+: Stack.after [] front →
        (ops.map Operator.precedence).Pairwise (· > ·) ∧ ops.length ≤ 2) ∧
      (Stack.after [] front).operators.length ≤
        2 * ((Stack.after [] front).count .bracket + 1) := by
  have hrising : (Stack.after [] front).Rising := Stack.rising_nil.after front
  refine ⟨Stack.run_append [] front rest, fun ops hops => ?_, ?_⟩
  · exact ⟨hrising.pairwise hops, Stack.length_le_two (hrising.pairwise hops)⟩
  · have htotal := hrising.length_operators_le
    have htop := hrising.length_close_le
    omega

theorem stack_rising_four :
    let st := Stack.after [] ["1", "+", "2", "×", "(", "3", "-", "4", "÷"]
    Stack.waiting [.divide, .subtract] <:+: st ∧
      ([.divide, .subtract].map Operator.precedence).Pairwise (· > ·) ∧
      st.operators.length = 2 * (st.count .bracket + 1) := by
  intro st
  have htop : Stack.waiting [.divide, .subtract] <:+: st :=
    ⟨[], .bracket :: Stack.waiting [.multiply, .add], by decide⟩
  have hrising := stack_rising ["1", "+", "2", "×", "(", "3", "-", "4", "÷"] ["5", ")"]
  exact ⟨htop, (hrising.2.1 _ htop).1, by decide⟩

end PocketCalculator.ReversePolish
