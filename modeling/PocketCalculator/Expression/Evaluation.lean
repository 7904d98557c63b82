import PocketCalculator.Operator
import PocketCalculator.Number.Literal

/-! Evaluation of an expression in reverse Polish order on a stack of values. Every intermediate
value is finite: a zero divisor and a result beyond the range of a double are faults and not
values. -/

namespace PocketCalculator

inductive Fault where
  | unknownToken (text : String)
  | missingOperand (operator : String)
  | divisionByZero
  | nonFiniteResult (operator : String)
  | leftoverValues (found : Nat)
  deriving DecidableEq, Repr

def Fault.message : Fault → String
  | unknownToken text => "Token '" ++ text ++ "' is neither a number nor an operator"
  | missingOperand operator => "Operator '" ++ operator ++ "' is missing an operand"
  | divisionByZero => "Division by zero"
  | nonFiniteResult operator => "Operator '" ++ operator ++ "' produced a non-finite value"
  | leftoverValues found => "Expected exactly one value after evaluation, found " ++ toString found

namespace Operator

def evaluate (op : Operator) (text : String) (a b : Float) : Except Fault Float :=
  if op = divide ∧ b == 0 then .error .divisionByZero
  else if (op.apply a b).isFinite then .ok (op.apply a b)
  else .error (.nonFiniteResult text)

theorem isFinite_of_evaluate {op : Operator} {text : String} {a b x : Float}
    (h : op.evaluate text a b = .ok x) : x.isFinite = true := by
  unfold evaluate at h
  split at h
  · cases h
  · split at h
    · cases h; assumption
    · cases h

end Operator

namespace ReversePolish

/-- The stack of values after one more text; the top comes first. A literal is tried before an
operator. -/
def push (values : List Float) (text : String) : Except Fault (List Float) :=
  if text = "" then .ok values
  else match number? text with
    | some x => .ok (x :: values)
    | none => match Operator.ofSymbol? text with
      | none => .error (.unknownToken text)
      | some op => match values with
        | b :: a :: rest => (op.evaluate text a b).map (· :: rest)
        | _ => .error (.missingOperand text)

def pushAll : List Float → List String → Except Fault (List Float)
  | values, [] => .ok values
  | values, text :: rest => (push values text).bind (pushAll · rest)

def evaluate (texts : List String) : Except Fault Float :=
  (pushAll [] texts).bind fun
    | [x] => .ok x
    | values => .error (.leftoverValues values.length)

end ReversePolish
end PocketCalculator
