/-! Why a key or an evaluation is refused: one cause for each rule of the keypad's grammar. -/

namespace PocketCalculator

inductive Refusal where
  | expectedNumber
  | signChangeNotAllowed
  | decimalPointAlreadyPlaced
  | openBracketNotAllowed
  | closeBracketNotAllowed
  | operatorNotAllowed
  | unbalancedBrackets
  | invalidExpression
  deriving DecidableEq, Repr

namespace Refusal

def all : List Refusal :=
  [expectedNumber, signChangeNotAllowed, decimalPointAlreadyPlaced, openBracketNotAllowed,
    closeBracketNotAllowed, operatorNotAllowed, unbalancedBrackets, invalidExpression]

theorem mem_all (r : Refusal) : r ∈ all := by cases r <;> decide

def name : Refusal → String
  | expectedNumber => "ExpectedNumber"
  | signChangeNotAllowed => "SignChangeNotAllowed"
  | decimalPointAlreadyPlaced => "DecimalPointAlreadyPlaced"
  | openBracketNotAllowed => "OpenBracketNotAllowed"
  | closeBracketNotAllowed => "CloseBracketNotAllowed"
  | operatorNotAllowed => "OperatorNotAllowed"
  | unbalancedBrackets => "UnbalancedBrackets"
  | invalidExpression => "InvalidExpression"

def message : Refusal → String
  | expectedNumber => "a number is expected"
  | signChangeNotAllowed => "the sign cannot be changed now"
  | decimalPointAlreadyPlaced => "the decimal point is already placed"
  | openBracketNotAllowed => "a bracket cannot be opened now"
  | closeBracketNotAllowed => "a bracket cannot be closed now"
  | operatorNotAllowed => "an operator cannot be entered now"
  | unbalancedBrackets => "a bracket is not closed"
  | invalidExpression => "the expression is invalid"

end Refusal
end PocketCalculator
