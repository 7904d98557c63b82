import PocketCalculator.Operator

/-! From the order in which an expression is typed to reverse Polish order, by one pass over the
texts with a stack of waiting operators and open brackets. No text is refused: a closing bracket
without partner only empties the stack, and an open bracket left at the end is sent out as it
stands. -/

namespace PocketCalculator.ReversePolish

inductive Word where
  | blank
  | openBracket
  | closeBracket
  | operator (op : Operator)
  | leaf (text : String)
  deriving DecidableEq, Repr

def Word.ofText (s : String) : Word :=
  if s = "" then .blank
  else if s = "(" then .openBracket
  else if s = ")" then .closeBracket
  else match Operator.ofSymbol? s with
    | some op => .operator op
    | none => .leaf s

inductive Waiting where
  | bracket
  | operator (op : Operator)
  deriving DecidableEq, Repr

def Waiting.symbol : Waiting → String
  | bracket => "("
  | operator op => op.symbol

/-- The top comes first. -/
abbrev Stack := List Waiting

namespace Stack

/-- The operators above the topmost bracket, and the stack below that bracket, which goes with
them. -/
def close : Stack → List Operator × Stack
  | [] => ([], [])
  | .bracket :: st => ([], st)
  | .operator op :: st => (op :: (close st).1, (close st).2)

/-- The operators on top that bind at least as tightly as `p`; a bracket hides what lies under
it. -/
def yieldTo (p : Nat) : Stack → List Operator × Stack
  | .operator op :: st =>
    if p ≤ op.precedence then (op :: (yieldTo p st).1, (yieldTo p st).2)
    else ([], .operator op :: st)
  | st => ([], st)

def step (st : Stack) : Word → List String × Stack
  | .blank => ([], st)
  | .openBracket => ([], .bracket :: st)
  | .closeBracket => (st.close.1.map Operator.symbol, st.close.2)
  | .operator op =>
    let (out, rest) := st.yieldTo op.precedence
    (out.map Operator.symbol, .operator op :: rest)
  | .leaf text => ([text], st)

def after (st : Stack) (texts : List String) : Stack :=
  texts.foldl (fun st s => (st.step (.ofText s)).2) st

def run (st : Stack) : List String → List String
  | [] => st.map Waiting.symbol
  | s :: rest => (st.step (.ofText s)).1 ++ run (st.step (.ofText s)).2 rest

@[simp] theorem after_nil (st : Stack) : st.after [] = st := rfl

@[simp] theorem after_cons (st : Stack) (s : String) (texts : List String) :
    st.after (s :: texts) = after (st.step (.ofText s)).2 texts := rfl

theorem after_append (st : Stack) (front rest : List String) :
    st.after (front ++ rest) = (st.after front).after rest := by
  simp only [after, List.foldl_append]

def waiting (ops : List Operator) : Stack := ops.map .operator

theorem yieldTo_waiting_append {p : Nat} {ops : List Operator} (h : ∀ op ∈ ops, p ≤ op.precedence)
    {st : Stack} (hs : st.yieldTo p = ([], st)) : yieldTo p (waiting ops ++ st) = (ops, st) := by
  induction ops with
  | nil => exact hs
  | cons op ops ih =>
    have hi := ih fun o ho => h o (List.mem_cons_of_mem _ ho)
    simp only [waiting, List.map_cons, List.cons_append] at hi ⊢
    rw [yieldTo, if_pos (h op List.mem_cons_self), hi]

theorem yieldTo_eq_self_of_le {p q : Nat} (hpq : p ≤ q) {st : Stack} (h : st.yieldTo p = ([], st)) :
    st.yieldTo q = ([], st) := by
  match st with
  | [] => rfl
  | .bracket :: st => rfl
  | .operator op :: st =>
    rw [yieldTo] at h
    split at h
    · cases h
    · rename_i hp
      rw [yieldTo, if_neg (by omega)]

theorem close_waiting_append (ops : List Operator) (st : Stack) :
    close (waiting ops ++ .bracket :: st) = (ops, st) := by
  induction ops with
  | nil => rfl
  | cons op ops ih =>
    simp only [waiting, List.map_cons, List.cons_append] at ih ⊢
    rw [close, ih]

theorem run_cons (st : Stack) (s : String) (rest : List String) :
    st.run (s :: rest) = (st.step (.ofText s)).1 ++ run (st.step (.ofText s)).2 rest := rfl

theorem run_blank (st : Stack) (rest : List String) : st.run ("" :: rest) = st.run rest := rfl

theorem run_filter (st : Stack) (texts : List String) :
    st.run (texts.filter (· ≠ "")) = st.run texts := by
  induction texts generalizing st with
  | nil => rfl
  | cons s rest ih =>
    by_cases hs : s = ""
    · subst hs
      rw [List.filter_cons_of_neg (by simp), ih, run_blank]
    · rw [List.filter_cons_of_pos (by simpa using hs), run_cons, run_cons, ih]

end Stack

def ofTyped (texts : List String) : List String := Stack.run [] texts

end PocketCalculator.ReversePolish
