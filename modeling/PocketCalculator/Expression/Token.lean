import PocketCalculator.Operator

/-! The pieces of an expression. A negative operand is shown wrapped in brackets of its own, `(-5)`,
and written plainly, `-5`, where it is handed on for evaluation. -/

namespace PocketCalculator

inductive Sign where
  | positive
  | negative
  deriving DecidableEq, Repr

namespace Sign

def all : List Sign := [positive, negative]

def name : Sign → String
  | positive => "Positive"
  | negative => "Negative"

def flip : Sign → Sign
  | positive => negative
  | negative => positive

def factor : Sign → Int
  | positive => 1
  | negative => -1

end Sign

structure Operand where
  digits : String
  sign : Sign
  deriving DecidableEq, Repr

namespace Operand

def shown (o : Operand) : String :=
  match o.sign with
  | .positive => o.digits
  | .negative => "(-" ++ o.digits ++ ")"

def plain (o : Operand) : String :=
  match o.sign with
  | .positive => o.digits
  | .negative => "-" ++ o.digits

end Operand

inductive Token where
  | operand (o : Operand)
  | operator (op : Operator)
  | openBracket
  | closeBracket
  deriving DecidableEq, Repr

inductive Token.Kind where
  | operand
  | operator
  | openBracket
  | closeBracket
  deriving DecidableEq, Repr

namespace Token

namespace Kind

def all : List Kind := [operand, operator, openBracket, closeBracket]

def name : Kind → String
  | operand => "Operand"
  | operator => "Operator"
  | openBracket => "OpenBracket"
  | closeBracket => "CloseBracket"

end Kind

def kind : Token → Kind
  | operand _ => .operand
  | operator _ => .operator
  | openBracket => .openBracket
  | closeBracket => .closeBracket

def shown : Token → String
  | operand o => o.shown
  | operator op => op.symbol
  | openBracket => "("
  | closeBracket => ")"

def plain : Token → String
  | operand o => o.plain
  | operator op => op.symbol
  | openBracket => "("
  | closeBracket => ")"

end Token
end PocketCalculator
