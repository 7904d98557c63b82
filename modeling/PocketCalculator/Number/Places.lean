import PocketCalculator.Number.Double

/-! Doubles as decimal text with a set number of places. The value is taken exactly and rounded
once, a tie going to the even last digit. An integral value has no places, and neither zero has a
sign. -/

namespace PocketCalculator

def pow2 (n : Nat) : Nat := Nat.pow 2 n

def pow10 (n : Nat) : Nat := Nat.pow 10 n

/-- The natural number nearest to `num / den`, the even one of two. -/
def roundDiv (num den : Nat) : Nat :=
  let q := num / den
  match compare (2 * (num % den)) den with
  | .lt => q
  | .eq => q + q % 2
  | .gt => q + 1

def placesText (n places : Nat) : String :=
  let digits := Nat.toDigits 10 n
  let padded := List.replicate (places + 1 - digits.length) '0' ++ digits
  let whole := padded.length - places
  String.ofList (if places = 0 then padded else padded.take whole ++ '.' :: padded.drop whole)

def signText (negative : Bool) : String := if negative then "-" else ""

namespace Double

def numerator (significand : Nat) (exponent : Int) : Nat := significand * pow2 exponent.toNat

def denominator (exponent : Int) : Nat := pow2 (-exponent).toNat

theorem denominator_pos (exponent : Int) : 0 < denominator exponent := Nat.two_pow_pos _

def places (digits : Nat) : Double → String
  | nan => "NaN"
  | infinity negative => signText negative ++ "inf"
  | finite negative significand exponent =>
    if significand = 0 then "0"
    else
      let num := numerator significand exponent
      let den := denominator exponent
      let places := if num % den = 0 then 0 else digits
      signText negative ++ placesText (roundDiv (num * pow10 places) den) places

end Double

def resultText (x : Float) (digits : Nat) : String := (Double.ofFloat x).places digits

end PocketCalculator
