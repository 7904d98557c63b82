import PocketCalculator.Expression.Tree

/-! The grammar of expressions as they are typed. An expression is a sum of products of factors,
sums and products lean to the left, and brackets leave no trace in the tree. The conversion of an
expression is the post-order of its tree. -/

namespace PocketCalculator

inductive Level where
  | expression
  | term
  | factor
  deriving DecidableEq, Repr

def Level.floor : Level → Nat
  | expression => 1
  | term => 2
  | factor => 3

def sumSymbols : List (String × Operator) := [("+", .add), ("-", .subtract)]

def productSymbols : List (String × Operator) :=
  [("×", .multiply), ("*", .multiply), ("÷", .divide), ("/", .divide)]

def marks : List String := ["", "(", ")", "+", "-", "×", "*", "÷", "/"]

/-- How the texts of an expression are read. Operators are kept by their canonical symbols. -/
inductive Reads : Level → List String → Tree → Prop where
  | leaf {s : String} : s ∉ marks → Reads .factor [s] (.leaf s)
  | group {ts : List String} {t : Tree} :
      Reads .expression ts t → Reads .factor ("(" :: ts ++ [")"]) t
  | factor {ts : List String} {t : Tree} : Reads .factor ts t → Reads .term ts t
  | product {ts us : List String} {l r : Tree} {op : Operator} {s : String} :
      (s, op) ∈ productSymbols →
      Reads .term ts l → Reads .factor us r → Reads .term (ts ++ s :: us) (.node op op.symbol l r)
  | term {ts : List String} {t : Tree} : Reads .term ts t → Reads .expression ts t
  | sum {ts us : List String} {l r : Tree} {op : Operator} {s : String} : (s, op) ∈ sumSymbols →
      Reads .expression ts l → Reads .term us r →
        Reads .expression (ts ++ s :: us) (.node op op.symbol l r)

theorem mem_sumSymbols_iff {s : String} {op : Operator} :
    (s, op) ∈ sumSymbols ↔ s ∈ op.symbols ∧ op.precedence = 1 := by
  cases op <;> simp [sumSymbols, Operator.symbols, Operator.precedence]

theorem mem_productSymbols_iff {s : String} {op : Operator} :
    (s, op) ∈ productSymbols ↔ s ∈ op.symbols ∧ op.precedence = 2 := by
  cases op <;> simp [productSymbols, Operator.symbols, Operator.precedence]

theorem Operator.mem_symbols_iff {s : String} {op : Operator} :
    s ∈ op.symbols ↔ (s, op) ∈ sumSymbols ∨ (s, op) ∈ productSymbols := by
  rw [mem_sumSymbols_iff, mem_productSymbols_iff, ← and_or_left]
  cases op <;> simp [precedence]

theorem ReversePolish.Word.ofText_eq_leaf_iff_not_mem_marks {s : String} :
    ofText s = .leaf s ↔ s ∉ marks := by
  have hop : Operator.ofSymbol? s = none ↔ ∀ op : Operator, s ∉ op.symbols := by
    rw [Option.eq_none_iff_forall_ne_some]
    exact forall_congr' fun op => not_congr Operator.ofSymbol?_eq_some_iff
  rw [ofText_eq_leaf_iff, hop]
  constructor
  · rintro ⟨h1, h2, h3, h⟩
    have := h .add
    have := h .subtract
    have := h .multiply
    have := h .divide
    simp_all [Operator.symbols, marks]
  · intro h
    refine ⟨?_, ?_, ?_, fun op hm => ?_⟩
    · rintro rfl; exact h (by decide)
    · rintro rfl; exact h (by decide)
    · rintro rfl; exact h (by decide)
    · cases op <;> simp_all [Operator.symbols, marks]

theorem Reads.spelled {level : Level} {ts : List String} {t : Tree} (h : Reads level ts t) :
    t.Spelled := by
  induction h with
  | leaf h => exact ReversePolish.Word.ofText_eq_leaf_iff_not_mem_marks.2 h
  | group _ ih => exact ih
  | factor _ ih => exact ih
  | product _ _ _ ihl ihr => exact ⟨Operator.symbol_mem_symbols _, ihl, ihr⟩
  | term _ ih => exact ih
  | sum _ _ _ ihl ihr => exact ⟨Operator.symbol_mem_symbols _, ihl, ihr⟩

namespace ReversePolish
open Stack

theorem Stack.run_operator {op : Operator} {s : String} (hs : s ∈ op.symbols) {ops : List Operator}
    (ho : ∀ o ∈ ops, op.precedence ≤ o.precedence) {st : Stack}
    (hst : st.yieldTo op.precedence = ([], st)) (rest : List String) :
    run (waiting ops ++ st) (s :: rest) =
      ops.map Operator.symbol ++ run (.operator op :: st) rest := by
  rw [run_cons, Word.ofText_symbol hs, step, yieldTo_waiting_append ho hst]

theorem Stack.run_closeBracket (ops : List Operator) (st : Stack) (rest : List String) :
    run (waiting ops ++ .bracket :: st) (")" :: rest) =
      ops.map Operator.symbol ++ run st rest := by
  have hstep : step (waiting ops ++ .bracket :: st) (.ofText ")") = (ops.map Operator.symbol, st) :=
    congrArg (Prod.map (List.map Operator.symbol) id) (close_waiting_append ops st)
  rw [run_cons, hstep]

/-- What is sent out while the texts of a tree are read, and the operators that are left waiting on
the stack for what follows; the stack below them must let none of its own operators go. -/
def Sends (level : Level) (ts : List String) (t : Tree) : Prop :=
  ∃ out ops, t.postorder = out ++ ops.map Operator.symbol ∧
    (∀ op ∈ ops, level.floor ≤ op.precedence) ∧
    ∀ (st : Stack) (rest : List String), st.yieldTo level.floor = ([], st) →
      st.run (ts ++ rest) = out ++ run (waiting ops ++ st) rest

namespace Sends
variable {level tighter : Level} {ts us : List String} {t l r : Tree} {op : Operator} {s : String}

theorem leaf (hs : s ∉ marks) : Sends .factor [s] (.leaf s) := by
  refine ⟨[s], [], rfl, by simp, fun st rest _ => ?_⟩
  rw [List.cons_append, List.nil_append, run_cons, Word.ofText_eq_leaf_iff_not_mem_marks.2 hs]
  rfl

theorem group (h : Sends .expression ts t) : Sends .factor ("(" :: ts ++ [")"]) t := by
  obtain ⟨out, ops, hpost, -, hrun⟩ := h
  refine ⟨t.postorder, [], by simp, by simp, fun st rest _ => ?_⟩
  calc st.run ("(" :: ts ++ [")"] ++ rest)
    _ = run (.bracket :: st) (ts ++ ")" :: rest) := by
        rw [List.cons_append, List.cons_append, List.append_assoc, run_cons]
        rfl
    _ = out ++ run (waiting ops ++ .bracket :: st) (")" :: rest) := hrun _ _ rfl
    _ = out ++ (ops.map Operator.symbol ++ run st rest) := by rw [run_closeBracket]
    _ = t.postorder ++ run (waiting [] ++ st) rest := by
        rw [hpost, List.append_assoc]
        rfl

theorem loosen (h : Sends tighter ts t) (hlevel : level.floor ≤ tighter.floor) :
    Sends level ts t := by
  obtain ⟨out, ops, hpost, hops, hrun⟩ := h
  exact ⟨out, ops, hpost, fun op hm => Nat.le_trans hlevel (hops op hm),
    fun st rest hst => hrun st rest (yieldTo_eq_self_of_le hlevel hst)⟩

theorem node (hs : s ∈ op.symbols) (hop : op.precedence = level.floor)
    (hlevel : level.floor < tighter.floor) (hl : Sends level ts l) (hr : Sends tighter us r) :
    Sends level (ts ++ s :: us) (.node op op.symbol l r) := by
  obtain ⟨out₁, ops₁, hpost₁, hops₁, hrun₁⟩ := hl
  obtain ⟨out₂, ops₂, hpost₂, hops₂, hrun₂⟩ := hr
  refine ⟨l.postorder ++ out₂, ops₂ ++ [op], by simp [Tree.postorder, hpost₂], fun o hm => ?_,
    fun st rest hst => ?_⟩
  · rcases List.mem_append.1 hm with hm | hm
    · exact Nat.le_trans (Nat.le_of_lt hlevel) (hops₂ o hm)
    · exact Nat.le_of_eq (List.mem_singleton.1 hm ▸ hop.symm)
  · -- The right side binds more tightly, so that it leaves the operator where it is.
    have hkeep : yieldTo tighter.floor (.operator op :: st) = ([], .operator op :: st) := by
      rw [yieldTo, if_neg (by omega)]
    calc st.run (ts ++ s :: us ++ rest)
      _ = out₁ ++ run (waiting ops₁ ++ st) (s :: (us ++ rest)) := by
          rw [List.append_assoc, hrun₁ st _ hst, List.cons_append]
      _ = out₁ ++ (ops₁.map Operator.symbol ++ run (.operator op :: st) (us ++ rest)) := by
          rw [run_operator hs (hop ▸ hops₁) (hop ▸ hst)]
      _ = l.postorder ++ (out₂ ++ run (waiting ops₂ ++ .operator op :: st) rest) := by
          rw [hrun₂ _ _ hkeep, hpost₁, List.append_assoc]
      _ = l.postorder ++ out₂ ++ run (waiting (ops₂ ++ [op]) ++ st) rest := by
          simp [waiting]

end Sends

theorem run_reads {level : Level} {ts : List String} {t : Tree} (h : Reads level ts t) :
    Sends level ts t := by
  induction h with
  | leaf hs => exact .leaf hs
  | group _ ih => exact ih.group
  | factor _ ih => exact ih.loosen (by decide)
  | term _ ih => exact ih.loosen (by decide)
  | product hs _ _ ihl ihr =>
    obtain ⟨hsymbol, hop⟩ := mem_productSymbols_iff.1 hs
    exact .node hsymbol hop (by decide) ihl ihr
  | sum hs _ _ ihl ihr =>
    obtain ⟨hsymbol, hop⟩ := mem_sumSymbols_iff.1 hs
    exact .node hsymbol hop (by decide) ihl ihr

theorem ofTyped_reads {ts : List String} {t : Tree} (h : Reads .expression ts t) :
    ofTyped ts = t.postorder := by
  obtain ⟨out, ops, hp, -, hr⟩ := run_reads h
  have := hr [] [] rfl
  rw [List.append_nil, List.append_nil] at this
  rw [ofTyped, this, hp, Stack.run, Stack.waiting, List.map_map]
  rfl

end ReversePolish
end PocketCalculator
