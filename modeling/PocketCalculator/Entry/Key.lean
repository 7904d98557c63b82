import PocketCalculator.Entry.KeyClass
import PocketCalculator.Entry.Refusal
import PocketCalculator.Operator

/-! The keys that edit an expression, what each needs to be admitted and what it is refused with. -/

namespace PocketCalculator

inductive EditKey where
  | digit (c : Char)
  | signFlip
  | decimalPoint
  | openBracket
  | closeBracket
  | operator (op : Operator)
  deriving DecidableEq, Repr

namespace EditKey

def requirement : EditKey → KeyClass
  | digit _ => .number
  | signFlip => .sign
  | decimalPoint => .decimalPoint
  | openBracket => .openBracket
  | closeBracket => .closeBracket
  | operator _ => .operator

def refusal : EditKey → Refusal
  | digit _ => .expectedNumber
  | signFlip => .signChangeNotAllowed
  | decimalPoint => .decimalPointAlreadyPlaced
  | openBracket => .openBracketNotAllowed
  | closeBracket => .closeBracketNotAllowed
  | operator _ => .operatorNotAllowed

end EditKey
end PocketCalculator
