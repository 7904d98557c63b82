import PocketCalculator.Entry.Key

/-! The buttons of the keypad. A button belongs to a group and bears a symbol, and the two together
give its key; many pairs give none. A label alone tells the group of the button that bears it. -/

namespace PocketCalculator

inductive Command where
  | clear
  | evaluate
  deriving DecidableEq, Repr

namespace Command

def all : List Command := [clear, evaluate]

def name : Command → String
  | clear => "Clear"
  | evaluate => "Evaluate"

end Command

inductive Key where
  | edit (k : EditKey)
  | command (c : Command)
  deriving DecidableEq, Repr

namespace Button

inductive Group where
  | digit
  | modifier
  | operator
  | action
  deriving DecidableEq, Repr

namespace Group

def all : List Group := [digit, modifier, operator, action]

theorem mem_all (g : Group) : g ∈ all := by cases g <;> decide

def name : Group → String
  | digit => "NumberDigit"
  | modifier => "Modifier"
  | operator => "Operator"
  | action => "Action"

end Group
end Button

structure Button where
  group : Button.Group
  symbol : String
  deriving DecidableEq, Repr

inductive Unresolved where
  | unknownSymbol (button : Button)
  | unknownLabel (label : String)
  deriving DecidableEq, Repr

def Unresolved.message : Unresolved → String
  | unknownSymbol b => "Unknown symbol '" ++ b.symbol ++ "' for category " ++ b.group.name
  | unknownLabel label => "No button is labelled '" ++ label ++ "'"

namespace Button

def digitOf? (s : String) : Option Char :=
  match s.toList with
  | [c] => if c.isDigit then some c else none
  | _ => none

def key? (b : Button) : Option Key :=
  match b.group with
  | .digit => (digitOf? b.symbol).map fun c => .edit (.digit c)
  | .modifier =>
    if b.symbol = "," ∨ b.symbol = "." then some (.edit .decimalPoint)
    else if b.symbol = "±" then some (.edit .signFlip)
    else none
  | .operator =>
    if b.symbol = "(" then some (.edit .openBracket)
    else if b.symbol = ")" then some (.edit .closeBracket)
    else (Operator.ofSymbol? b.symbol).map fun op => .edit (.operator op)
  | .action =>
    if b.symbol = "C" then some (.command .clear)
    else if b.symbol = "=" then some (.command .evaluate)
    else none

def key (b : Button) : Except Unresolved Key :=
  match b.key? with
  | some k => .ok k
  | none => .error (.unknownSymbol b)

def groupOfLabel? (label : String) : Option Group :=
  if label ∈ ["0", "1", "2", "3", "4", "5", "6", "7", "8", "9"] then some .digit
  else if label ∈ [",", ".", "±"] then some .modifier
  else if label ∈ ["(", ")"] then some .operator
  else if label ∈ ["C", "="] then some .action
  else if (Operator.ofSymbol? label).isSome then some .operator
  else none

def ofLabel (label : String) : Except Unresolved Button :=
  match groupOfLabel? label with
  | some g => .ok ⟨g, label⟩
  | none => .error (.unknownLabel label)

end Button
end PocketCalculator
