import PocketCalculator.Proofs.Expression.Surplus

/-! What the conversion sends out, and when. A leaf goes at once, an operator waits on the stack,
and nothing else ever goes but the brackets left open at the end, so that the output is a reordering
of the operands and operators of the source and of those brackets. -/

namespace PocketCalculator.ReversePolish
open scoped List

def Word.sent : Word → List String
  | leaf text => [text]
  | operator op => [op.symbol]
  | _ => []

namespace Stack

def operators : Stack → List Operator
  | [] => []
  | .bracket :: st => operators st
  | .operator op :: st => op :: operators st

def sent (st : Stack) : List String → List String
  | [] => []
  | s :: rest => (st.step (.ofText s)).1 ++ sent (st.step (.ofText s)).2 rest

theorem run_append (st : Stack) (front rest : List String) :
    st.run (front ++ rest) = st.sent front ++ (st.after front).run rest := by
  induction front generalizing st with
  | nil => rfl
  | cons s front ih => rw [List.cons_append, run_cons, ih, sent, after_cons, List.append_assoc]

theorem operators_waiting_append (ops : List Operator) (st : Stack) :
    operators (waiting ops ++ st) = ops ++ st.operators := by
  induction ops with
  | nil => rfl
  | cons op ops ih => exact congrArg (op :: ·) ih

theorem operators_waiting (ops : List Operator) : (waiting ops).operators = ops := by
  rw [← List.append_nil (waiting ops), operators_waiting_append, operators, List.append_nil]

theorem operators_close (st : Stack) : st.close.1 ++ st.close.2.operators = st.operators := by
  rcases st.waiting_close with h | ⟨h, hn⟩
  · have hops := congrArg operators h
    rwa [operators_waiting_append, operators] at hops
  · have hops := congrArg operators h
    rw [operators_waiting] at hops
    rw [hn, hops, operators, List.append_nil]

theorem operators_yieldTo (p : Nat) (st : Stack) :
    (st.yieldTo p).1 ++ (st.yieldTo p).2.operators = st.operators := by
  rw [← operators_waiting_append, waiting_yieldTo_append]

theorem step_perm (st : Stack) (w : Word) :
    (st.step w).1 ++ (st.step w).2.operators.map Operator.symbol ~
      st.operators.map Operator.symbol ++ w.sent := by
  cases w with
  | blank => exact .of_eq (List.append_nil _).symm
  | openBracket => exact .of_eq (List.append_nil _).symm
  | closeBracket =>
    have hclose := congrArg (List.map Operator.symbol) st.operators_close
    rw [List.map_append] at hclose
    exact .of_eq (hclose.trans (List.append_nil _).symm)
  | operator op =>
    have hyield := congrArg (List.map Operator.symbol) (st.operators_yieldTo op.precedence)
    rw [List.map_append] at hyield
    rw [← hyield, List.append_assoc]
    -- The new operator waits below those that go and above those that stay.
    exact List.Perm.append_left _ (List.perm_append_singleton op.symbol _).symm
  | leaf text => exact List.perm_append_comm

theorem sent_perm (st : Stack) (texts : List String) :
    st.sent texts ++ (st.after texts).operators.map Operator.symbol ~
      st.operators.map Operator.symbol ++ texts.flatMap fun s => (Word.ofText s).sent := by
  induction texts generalizing st with
  | nil => exact .of_eq (List.append_nil _).symm
  | cons s rest ih =>
    calc st.sent (s :: rest) ++ (st.after (s :: rest)).operators.map Operator.symbol
      _ = (st.step (.ofText s)).1 ++ (sent (st.step (.ofText s)).2 rest ++
            (after (st.step (.ofText s)).2 rest).operators.map Operator.symbol) := by
          rw [sent, after_cons, List.append_assoc]
      _ ~ (st.step (.ofText s)).1 ++ ((st.step (.ofText s)).2.operators.map Operator.symbol ++
            rest.flatMap fun s => (Word.ofText s).sent) := (ih _).append_left _
      _ = (st.step (.ofText s)).1 ++ (st.step (.ofText s)).2.operators.map Operator.symbol ++
            rest.flatMap fun s => (Word.ofText s).sent := (List.append_assoc ..).symm
      _ ~ st.operators.map Operator.symbol ++ (Word.ofText s).sent ++
            rest.flatMap fun s => (Word.ofText s).sent := (st.step_perm _).append_right _
      _ = st.operators.map Operator.symbol ++
            (s :: rest).flatMap fun s => (Word.ofText s).sent := by
          rw [List.flatMap_cons, List.append_assoc]

theorem symbols_perm (st : Stack) :
    st.map Waiting.symbol ~
      st.operators.map Operator.symbol ++ List.replicate (st.count .bracket) "(" := by
  induction st with
  | nil => exact .nil
  | cons w st ih =>
    cases w with
    | bracket =>
      rw [List.map_cons, List.count_cons_self, List.replicate_succ, operators]
      exact (ih.cons "(").trans List.perm_middle.symm
    | operator op =>
      rw [List.map_cons, List.count_cons_of_ne (by simp), operators]
      exact ih.cons op.symbol

theorem count_bracket_waiting (ops : List Operator) : (waiting ops).count .bracket = 0 :=
  List.count_eq_zero_of_not_mem fun hm => by
    obtain ⟨op, -, hop⟩ := List.mem_map.1 hm
    cases hop

end Stack

theorem ofTyped_eq_sent_append (texts : List String) :
    ofTyped texts = Stack.sent [] texts ++ (Stack.after [] texts).map Waiting.symbol := by
  have hrun := Stack.run_append [] texts []
  rwa [List.append_nil] at hrun

theorem ofTyped_perm_append (texts : List String) :
    ofTyped texts ~ (texts.flatMap fun s => (Word.ofText s).sent) ++
      List.replicate ((Stack.after [] texts).count .bracket) "(" := by
  calc ofTyped texts
    _ ~ Stack.sent [] texts ++ ((Stack.after [] texts).operators.map Operator.symbol ++
          List.replicate ((Stack.after [] texts).count .bracket) "(") :=
        ofTyped_eq_sent_append texts ▸ (Stack.symbols_perm _).append_left _
    _ = Stack.sent [] texts ++ (Stack.after [] texts).operators.map Operator.symbol ++
          List.replicate ((Stack.after [] texts).count .bracket) "(" :=
        (List.append_assoc ..).symm
    _ ~ (texts.flatMap fun s => (Word.ofText s).sent) ++
          List.replicate ((Stack.after [] texts).count .bracket) "(" :=
        (Stack.sent_perm [] texts).append_right _

theorem ofTyped_perm {texts : List String} {ops : List Operator}
    (h : Stack.after [] texts = Stack.waiting ops) :
    ofTyped texts ~ texts.flatMap fun s => (Word.ofText s).sent := by
  have hperm := ofTyped_perm_append texts
  rwa [h, Stack.count_bracket_waiting, List.replicate_zero, List.append_nil] at hperm

end PocketCalculator.ReversePolish
