import PocketCalculator.Expression.ReversePolish
import PocketCalculator.Proofs.Entry.Sequence

/-! Which open bracket a closing one belongs to. `Matched` texts close all of their brackets, and
`Nested n` leaves `n` open. What stands between two brackets is matched in itself, and the
conversion, whatever operators it has waiting, finds the stack below the open one as it was when
that one came. -/

namespace PocketCalculator

theorem Operator.symbol_ne_bracket (op : Operator) : op.symbol ≠ "(" ∧ op.symbol ≠ ")" := by
  cases op <;> decide

namespace ReversePolish

inductive Matched : List String → Prop where
  | nil : Matched []
  | text {ts : List String} {s : String} : Matched ts → s ≠ "(" → s ≠ ")" → Matched (ts ++ [s])
  | group {ts us : List String} : Matched ts → Matched us → Matched (ts ++ ("(" :: us ++ [")"]))

inductive Nested : Nat → List String → Prop where
  | base {ts : List String} : Matched ts → Nested 0 ts
  | group {n : Nat} {ts us : List String} : Nested n ts → Matched us →
      Nested (n + 1) (ts ++ "(" :: us)

variable {n : Nat} {ts us vs : List String} {st : Stack}

theorem Nested.append (h : Nested n ts) (hv : ∀ us, Matched us → Matched (us ++ vs)) :
    Nested n (ts ++ vs) := by
  cases h with
  | base h => exact .base (hv _ h)
  | @group _ ts us h hu =>
    rw [List.append_assoc, List.cons_append]
    exact .group h (hv us hu)

theorem Nested.close (h : Nested (n + 1) ts) : Nested n (ts ++ [")"]) := by
  cases h with
  | @group _ ts us h hu =>
    rw [List.append_assoc]
    exact h.append fun vs hvs => .group hvs hu

theorem nested_of_balanced {ts : List Token} (hb : Balanced ts)
    (hm : ∀ o, .operand o ∈ ts → o.plain ≠ "(" ∧ o.plain ≠ ")") :
    Nested (openBracketCount ts) (ts.map Token.plain) := by
  -- From the last token, which goes into the innermost group that is still open.
  induction ts using List.reverseRecOn with
  | nil => exact .base .nil
  | append_singleton ts t ih =>
    obtain ⟨hbal, hclose⟩ := balanced_concat_iff.1 hb
    have hn := ih hbal fun o hmem => hm o (List.mem_append_left _ hmem)
    rw [openBracketCount_concat, List.map_append, List.map_singleton]
    cases t with
    | operand o =>
      obtain ⟨ho, hc⟩ := hm o (by simp)
      exact hn.append fun us hu => .text hu ho hc
    | operator op =>
      obtain ⟨ho, hc⟩ := op.symbol_ne_bracket
      exact hn.append fun us hu => .text hu ho hc
    | openBracket => exact .group hn .nil
    | closeBracket =>
      have hpos : openBracketCount ts = (openBracketCount ts - 1) + 1 := by
        have := hbal.openBracketCount_add
        have := hclose rfl
        omega
      rw [hpos] at hn
      exact hn.close

theorem Word.ofText_ne_bracket {s : String} (ho : s ≠ "(") (hc : s ≠ ")") :
    ofText s ≠ .openBracket ∧ ofText s ≠ .closeBracket := by
  rw [ofText, if_neg ho, if_neg hc]
  split
  · simp
  · split <;> simp

namespace Stack

/-- Whether the stack gives nothing to any operator: it is empty or there is a bracket on top. -/
def Closed (st : Stack) : Prop := ∀ p, st.yieldTo p = ([], st)

theorem closed_nil : Closed [] := fun _ => rfl

theorem closed_bracket (st : Stack) : Closed (.bracket :: st) := fun _ => rfl

theorem exists_yieldTo_waiting (hst : st.Closed) (p : Nat) (ops : List Operator) :
    ∃ out rest, yieldTo p (waiting ops ++ st) = (out, waiting rest ++ st) := by
  induction ops with
  | nil => exact ⟨[], [], hst p⟩
  | cons op ops ih =>
    obtain ⟨out, rest, h⟩ := ih
    by_cases hp : p ≤ op.precedence
    · refine ⟨op :: out, rest, ?_⟩
      show yieldTo p (.operator op :: (waiting ops ++ st)) = _
      rw [yieldTo, if_pos hp, h]
    · refine ⟨[], op :: ops, ?_⟩
      show yieldTo p (.operator op :: (waiting ops ++ st)) = _
      rw [yieldTo, if_neg hp]
      rfl

theorem exists_step_waiting (hst : st.Closed) (ops : List Operator) {s : String} (ho : s ≠ "(")
    (hc : s ≠ ")") : ∃ rest, (step (waiting ops ++ st) (.ofText s)).2 = waiting rest ++ st := by
  obtain ⟨hopen, hclose⟩ := Word.ofText_ne_bracket ho hc
  cases hw : Word.ofText s with
  | blank => exact ⟨ops, rfl⟩
  | openBracket => exact absurd hw hopen
  | closeBracket => exact absurd hw hclose
  | operator op =>
    obtain ⟨out, rest, h⟩ := exists_yieldTo_waiting hst op.precedence ops
    refine ⟨op :: rest, ?_⟩
    rw [step, h]
    rfl
  | leaf text => exact ⟨ops, rfl⟩

theorem exists_after_matched (h : Matched ts) (hst : st.Closed) (ops : List Operator) :
    ∃ rest, after (waiting ops ++ st) ts = waiting rest ++ st := by
  induction h generalizing st ops with
  | nil => exact ⟨ops, rfl⟩
  | @text ts s _ ho hc ih =>
    obtain ⟨rest, hrest⟩ := ih hst ops
    rw [after_append, hrest, after_cons, after_nil]
    exact exists_step_waiting hst rest ho hc
  | @group ts us _ _ iht ihu =>
    obtain ⟨outer, houter⟩ := iht hst ops
    obtain ⟨inner, hinner⟩ := ihu (closed_bracket (waiting outer ++ st)) []
    have hopen : (step (waiting outer ++ st) (.ofText "(")).2 =
        waiting [] ++ .bracket :: (waiting outer ++ st) := rfl
    have hclose : (step (waiting inner ++ .bracket :: (waiting outer ++ st)) (.ofText ")")).2 =
        waiting outer ++ st := congrArg Prod.snd (close_waiting_append inner _)
    refine ⟨outer, ?_⟩
    rw [after_append, houter, List.cons_append, after_cons, after_append, hopen, hinner, after_cons,
      hclose, after_nil]

end Stack

theorem Nested.exists_after (h : Nested (n + 1) ts) :
    ∃ before inner ops, ts = before ++ "(" :: inner ∧ Matched inner ∧
      Stack.after [] ts = Stack.waiting ops ++ .bracket :: Stack.after [] before := by
  cases h with
  | @group _ before inner h hinner =>
    obtain ⟨ops, hops⟩ := Stack.exists_after_matched hinner
      (Stack.closed_bracket (Stack.after [] before)) []
    refine ⟨before, inner, ops, rfl, hinner, ?_⟩
    rw [Stack.after_append, Stack.after_cons]
    exact hops

theorem Nested.exists_after_zero (h : Nested 0 ts) :
    ∃ ops, Stack.after [] ts = Stack.waiting ops := by
  cases h with
  | base h =>
    obtain ⟨ops, hops⟩ := Stack.exists_after_matched h Stack.closed_nil []
    exact ⟨ops, hops.trans (List.append_nil _)⟩

theorem exists_open_of_balanced {ts : List Token} (hb : Balanced ts)
    (hm : ∀ o, .operand o ∈ ts → o.plain ≠ "(" ∧ o.plain ≠ ")") {front rest : List String}
    (h : ts.map Token.plain = front ++ ")" :: rest) :
    ∃ before inner ops, front = before ++ "(" :: inner ∧ Matched inner ∧
      Stack.after [] front = Stack.waiting ops ++ .bracket :: Stack.after [] before := by
  obtain ⟨fs, cs, rfl, rfl, hcs⟩ := List.map_eq_append_iff.1 h
  obtain ⟨c, rs, rfl, hc, -⟩ := List.map_eq_cons_iff.1 hcs
  obtain rfl : c = .closeBracket := by
    cases c with
    | closeBracket => rfl
    | openBracket => exact absurd hc (by decide)
    | operand o => exact absurd hc (hm o (by simp)).2
    | operator op => exact absurd hc op.symbol_ne_bracket.2
  have hprefix : fs ++ [.closeBracket] <+: fs ++ .closeBracket :: rs := ⟨rs, by simp⟩
  obtain ⟨hbal, hlt⟩ := balanced_concat_iff.1 fun us hu => hb us (hu.trans hprefix)
  have hn := nested_of_balanced hbal fun o ho => hm o (List.mem_append_left _ ho)
  have hpos : openBracketCount fs = (openBracketCount fs - 1) + 1 := by
    have := hbal.openBracketCount_add
    have := hlt rfl
    omega
  rw [hpos] at hn
  exact hn.exists_after

end ReversePolish
end PocketCalculator
