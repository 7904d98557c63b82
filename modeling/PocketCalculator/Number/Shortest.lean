import PocketCalculator.Number.Places

/-! The shortest decimal text that reads back as the same double: of all decimals within its
rounding interval those with the fewest digits, of these the nearest, and of two equally near the
larger. The layout is positional for moderate magnitudes and scientific beyond them. -/

namespace PocketCalculator

namespace Double

/-- Whether the double is a power of two whose lower neighbour is only half as far away as its upper
one. -/
def narrowBelow (significand : Nat) (exponent : Int) : Bool :=
  significand = 0x10000000000000 ∧ -1074 < exponent

structure Interval where
  low : Nat
  value : Nat
  high : Nat
  den : Nat
  closed : Bool

def interval (significand : Nat) (exponent : Int) : Interval :=
  let scale := pow2 (exponent - 2).toNat
  { low := (4 * significand - if narrowBelow significand exponent then 1 else 2) * scale
    value := 4 * significand * scale
    high := (4 * significand + 2) * scale
    den := pow2 (2 - exponent).toNat
    -- An even significand wins its ties, so that the ends belong to the interval.
    closed := significand % 2 = 0 }

namespace Interval

def rescale (i : Interval) (q : Int) : Interval :=
  let up := pow10 (-q).toNat
  { i with
    low := i.low * up, value := i.value * up, high := i.high * up, den := i.den * pow10 q.toNat }

def contains (i : Interval) (c : Nat) : Bool :=
  if i.closed then i.low ≤ c * i.den ∧ c * i.den ≤ i.high
  else i.low < c * i.den ∧ c * i.den < i.high

def nearest? (i : Interval) : Option Nat :=
  let c := i.value / i.den
  match i.contains c, i.contains (c + 1) with
  | true, true => some (if 2 * (i.value % i.den) < i.den then c else c + 1)
  | true, false => some c
  | false, true => some (c + 1)
  | false, false => none

def leading (i : Interval) : Int :=
  if i.den ≤ i.value then ((Nat.toDigits 10 (i.value / i.den)).length : Int) - 1
  else -((Nat.toDigits 10 ((i.den - 1) / i.value)).length : Int)

/-- The decimal `c * 10 ^ q` of the fewest digits in the interval, sought among `count` digits and
more. -/
def select (i : Interval) (lead : Int) (count : Nat) : Nat → Nat × Int
  | 0 => (i.value / i.den, 0)
  | more + 1 =>
    let q := lead + 1 - (count : Int)
    match (i.rescale q).nearest? with
    | some c => (c, q)
    | none => select i lead (count + 1) more

end Interval

def shortest (significand : Nat) (exponent : Int) : Nat × Int :=
  let i := interval significand exponent
  -- Seventeen digits suffice for every double.
  i.select i.leading 1 17

end Double

structure Layout where
  least : Int
  greatest : Int
  integralEnd : String

/-- Positional from `0.0001` to below `1e16`, with at least one place; scientific beyond, with as
many as needed. -/
def Layout.general : Layout := ⟨-4, 15, ".0"⟩

namespace Layout

def text (l : Layout) (ds : List Char) (lead : Int) : String :=
  if l.least ≤ lead ∧ lead ≤ l.greatest then
    if lead < 0 then "0." ++ String.ofList (List.replicate (-lead - 1).toNat '0' ++ ds)
    else
      let whole := lead.toNat + 1
      if ds.length ≤ whole then
        String.ofList (ds ++ List.replicate (whole - ds.length) '0') ++ l.integralEnd
      else String.ofList (ds.take whole ++ '.' :: ds.drop whole)
  else
    let places := if ds.length ≤ 1 then "" else "." ++ String.ofList (ds.drop 1)
    String.ofList (ds.take 1) ++ places ++ "e" ++ toString lead

end Layout

def shortestText (x : Float) : String :=
  match Double.ofFloat x with
  | .nan => "NaN"
  | .infinity negative => signText negative ++ "inf"
  | .finite negative significand exponent =>
    if significand = 0 then signText negative ++ "0" ++ Layout.general.integralEnd
    else
      let (c, q) := Double.shortest significand exponent
      let all := Nat.toDigits 10 c
      let ds := (all.reverse.dropWhile (· = '0')).reverse
      signText negative ++ Layout.general.text ds (q + all.length - 1)

end PocketCalculator
