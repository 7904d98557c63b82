import PocketCalculator.Entry.KeyClass
import PocketCalculator.Expression.Token

/-! The rule of admission: which classes of keys may follow, by the shape of the number being typed,
the open brackets and the kind of the last finished token. A closed bracket counts as a finished
operand. -/

namespace PocketCalculator

inductive Pending where
  | none
  | digits
  | trailingPoint
  deriving DecidableEq, Repr

def Pending.ofText (s : String) : Pending :=
  if s = "" then .none
  else if s.toList.getLast? = some '.' then .trailingPoint
  else .digits

def admitted (pending : Pending) (hasPoint : Bool) (openBrackets : Nat) (last : Option Token.Kind) :
    KeySet :=
  match pending with
  | .none =>
    let afterGroup := decide (last = some .closeBracket)
    KeySet.empty
      |>.insertIf .number (!afterGroup)
      |>.insertIf .openBracket (!afterGroup)
      |>.insertIf .closeBracket (0 < openBrackets)
      |>.insertIf .operator afterGroup
  | .digits =>
    KeySet.ofList [.number, .sign, .operator]
      |>.insertIf .decimalPoint (!hasPoint)
      |>.insertIf .closeBracket (0 < openBrackets)
  | .trailingPoint => KeySet.ofList [.number, .sign]

end PocketCalculator
