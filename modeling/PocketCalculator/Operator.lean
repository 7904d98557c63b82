/-! The four arithmetic operators: how they are written, how tightly they bind and what they
compute. -/

namespace PocketCalculator

inductive Operator where
  | add
  | subtract
  | multiply
  | divide
  deriving DecidableEq, Repr

namespace Operator

def all : List Operator := [add, subtract, multiply, divide]

theorem mem_all (op : Operator) : op ∈ all := by cases op <;> decide

def name : Operator → String
  | add => "Add"
  | subtract => "Subtract"
  | multiply => "Multiply"
  | divide => "Divide"

def symbol : Operator → String
  | add => "+"
  | subtract => "-"
  | multiply => "×"
  | divide => "÷"

/-- Every symbol that is read as the operator: the canonical one first, then what a typewriter
keyboard offers. -/
def symbols : Operator → List String
  | add => ["+"]
  | subtract => ["-"]
  | multiply => ["×", "*"]
  | divide => ["÷", "/"]

def ofSymbol? (s : String) : Option Operator := all.find? (s ∈ ·.symbols)

def precedence : Operator → Nat
  | add | subtract => 1
  | multiply | divide => 2

def apply : Operator → Float → Float → Float
  | add, a, b => a + b
  | subtract, a, b => a - b
  | multiply, a, b => a * b
  | divide, a, b => a / b

theorem symbol_mem_symbols (op : Operator) : op.symbol ∈ op.symbols := by cases op <;> decide

theorem ofSymbol?_eq_some_iff {s : String} {op : Operator} :
    ofSymbol? s = some op ↔ s ∈ op.symbols := by
  constructor
  · intro h
    simpa using List.find?_some h
  · intro h
    cases op <;> simp only [symbols, List.mem_cons, List.not_mem_nil, or_false] at h
    · subst h; decide
    · subst h; decide
    · rcases h with rfl | rfl <;> decide
    · rcases h with rfl | rfl <;> decide

@[simp] theorem ofSymbol?_symbol (op : Operator) : ofSymbol? op.symbol = some op :=
  ofSymbol?_eq_some_iff.2 op.symbol_mem_symbols

theorem precedence_pos (op : Operator) : 0 < op.precedence := by cases op <;> decide

theorem precedence_le_two (op : Operator) : op.precedence ≤ 2 := by cases op <;> decide

end Operator
end PocketCalculator
