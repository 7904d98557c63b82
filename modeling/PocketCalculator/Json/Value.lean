/-! JSON values, as far as a document can hold them: the order of members and repeated keys are
kept, spacing and the spelling of strings are not. -/

namespace PocketCalculator

/-- A string with half of a surrogate pair in it is well formed and stands for no text: its text is
`none`. -/
inductive Json where
  | null
  | bool (b : Bool)
  | natural (n : Nat)
  /-- A number with a minus sign, a point or an exponent. No document reads one, so that its value
  is not kept. -/
  | decimal
  | string (text : Option String)
  | array (items : List Json)
  | object (members : List (Option String × Json))
  deriving Repr

namespace Json

inductive Lexeme where
  | openBracket
  | closeBracket
  | openBrace
  | closeBrace
  | comma
  | colon
  | null
  | bool (b : Bool)
  | natural (n : Nat)
  | decimal
  | string (text : Option String)
  deriving DecidableEq, Repr

end Json
end PocketCalculator
