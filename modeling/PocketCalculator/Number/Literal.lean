/-! Decimal literals: an optional sign, digits with an optional point, and an optional exponent. The
value is the double nearest to the written number, a tie going to the even one; a literal that would
be infinite has no value. -/

namespace PocketCalculator

/-- The number `significand * 10 ^ exponent`, negated if `negative`. A negated zero keeps its
sign. -/
structure Decimal where
  negative : Bool
  significand : Nat
  exponent : Int
  deriving DecidableEq, Repr

namespace Decimal

def splitSign : List Char → Bool × List Char
  | '-' :: cs => (true, cs)
  | '+' :: cs => (false, cs)
  | cs => (false, cs)

def splitDigits (cs : List Char) : List Char × List Char :=
  (cs.takeWhile Char.isDigit, cs.dropWhile Char.isDigit)

def splitFraction : List Char → List Char × List Char
  | '.' :: cs => splitDigits cs
  | cs => ([], cs)

def ofDigits (ds : List Char) : Nat := Nat.ofDigitChars 10 ds 0

def exponent? : List Char → Option Int
  | [] => some 0
  | c :: cs =>
    if c = 'e' ∨ c = 'E' then
      let (negative, ds) := splitSign cs
      if ds ≠ [] ∧ ds.all Char.isDigit then
        some (if negative then -(ofDigits ds : Int) else ofDigits ds)
      else none
    else none

def ofChars? (cs : List Char) : Option Decimal :=
  let (negative, cs) := splitSign cs
  let (whole, cs) := splitDigits cs
  let (fraction, cs) := splitFraction cs
  if whole = [] ∧ fraction = [] then none
  else (exponent? cs).map fun e => ⟨negative, ofDigits (whole ++ fraction), e - fraction.length⟩

def ofString? (s : String) : Option Decimal := ofChars? s.toList

def toFloat (d : Decimal) : Float :=
  let magnitude := Float.ofScientific d.significand (d.exponent < 0) d.exponent.natAbs
  if d.negative then -magnitude else magnitude

end Decimal

def number? (s : String) : Option Float :=
  ((Decimal.ofString? s).map Decimal.toFloat).filter Float.isFinite

theorem isFinite_of_number? {s : String} {x : Float} (h : number? s = some x) : x.isFinite = true :=
  (Option.filter_eq_some_iff.1 h).2

end PocketCalculator
