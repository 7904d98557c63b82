import PocketCalculator.Entry.Refusal
import PocketCalculator.Text.Blank

/-! What a user may configure: the wording of every refusal and the number of decimals of a result.
Settings are valid if no wording is blank and the number of decimals is at most ten; every violation
is reported, in the order of the fields. -/

namespace PocketCalculator

structure Messages where
  expectedNumber : String := Refusal.expectedNumber.message
  signChangeNotAllowed : String := Refusal.signChangeNotAllowed.message
  decimalPointAlreadyPlaced : String := Refusal.decimalPointAlreadyPlaced.message
  openBracketNotAllowed : String := Refusal.openBracketNotAllowed.message
  closeBracketNotAllowed : String := Refusal.closeBracketNotAllowed.message
  operatorNotAllowed : String := Refusal.operatorNotAllowed.message
  unbalancedBrackets : String := Refusal.unbalancedBrackets.message
  invalidExpression : String := Refusal.invalidExpression.message
  deriving DecidableEq, Repr

namespace Messages

def standard : Messages := {}

def text (m : Messages) : Refusal → String
  | .expectedNumber => m.expectedNumber
  | .signChangeNotAllowed => m.signChangeNotAllowed
  | .decimalPointAlreadyPlaced => m.decimalPointAlreadyPlaced
  | .openBracketNotAllowed => m.openBracketNotAllowed
  | .closeBracketNotAllowed => m.closeBracketNotAllowed
  | .operatorNotAllowed => m.operatorNotAllowed
  | .unbalancedBrackets => m.unbalancedBrackets
  | .invalidExpression => m.invalidExpression

theorem text_standard (r : Refusal) : standard.text r = r.message := by cases r <;> rfl

end Messages

def Refusal.field : Refusal → String
  | expectedNumber => "expected_number"
  | signChangeNotAllowed => "sign_change_not_allowed"
  | decimalPointAlreadyPlaced => "decimal_point_already_placed"
  | openBracketNotAllowed => "open_bracket_not_allowed"
  | closeBracketNotAllowed => "close_bracket_not_allowed"
  | operatorNotAllowed => "operator_not_allowed"
  | unbalancedBrackets => "unbalanced_brackets"
  | invalidExpression => "invalid_expression"

structure Settings where
  messages : Messages := {}
  fractionDigits : UInt64 := 2
  deriving DecidableEq, Repr

namespace Settings

def standard : Settings := {}

def maxFractionDigits : Nat := 10

inductive Violation where
  | blankMessage (message : Refusal)
  | fractionDigitsOutOfRange (found : Nat)
  deriving DecidableEq, Repr

def Violation.message : Violation → String
  | blankMessage r => "Message '" ++ r.field ++ "' is blank"
  | fractionDigitsOutOfRange found =>
    "Fraction digits (" ++ toString found ++ ") exceeds the maximum of " ++
      toString maxFractionDigits

def violations (s : Settings) : List Violation :=
  (Refusal.all.filter fun r => isBlank (s.messages.text r)).map .blankMessage ++
    if maxFractionDigits < s.fractionDigits.toNat then
      [.fractionDigitsOutOfRange s.fractionDigits.toNat] else []

inductive Invalid where
  | unreadable
  | violated (violations : List Violation)
  deriving DecidableEq, Repr

def Invalid.message : Invalid → String
  | unreadable => "Failed to parse settings"
  | violated vs => "Invalid settings: " ++ "; ".intercalate (vs.map Violation.message)

def validate (s : Settings) : Except Invalid Settings :=
  if s.violations = [] then .ok s else .error (.violated s.violations)

end Settings
end PocketCalculator
