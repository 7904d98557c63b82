/-! Quoted strings. The writer escapes the quote, the backslash and the control characters; the
reader knows every escape of the format. An escape `\u` stands for a unit of sixteen bits, and two
units that form a surrogate pair for one character. -/

namespace PocketCalculator.Json

inductive Piece where
  | char (c : Char)
  | unit (n : Nat)
  deriving DecidableEq, Repr

def shortEscapes : List (Char × Char) :=
  [('"', '"'), ('\\', '\\'), ('\x08', 'b'), ('\t', 't'), ('\n', 'n'), ('\x0c', 'f'), ('\r', 'r')]

def isControl (c : Char) : Bool := c.toNat < 0x20

def escape (c : Char) : List Char :=
  match shortEscapes.find? (·.1 = c) with
  | some (_, letter) => ['\\', letter]
  | none =>
    if isControl c then ['\\', 'u', '0', '0', (c.toNat / 16).digitChar, (c.toNat % 16).digitChar]
    else [c]

/-- The text in quotes. Half of a surrogate pair is written in place of a string that has no
text. -/
def quote (text : Option String) : List Char :=
  '"' :: (match text with
    | some s => s.toList.flatMap escape
    | none => "\\ud800".toList) ++ ['"']

def hexDigit? (c : Char) : Option Nat :=
  if c.isDigit then some (c.toNat - '0'.toNat)
  else if 'a' ≤ c ∧ c ≤ 'f' then some (c.toNat - 'a'.toNat + 10)
  else if 'A' ≤ c ∧ c ≤ 'F' then some (c.toNat - 'A'.toNat + 10)
  else none

def hexUnit? (a b c d : Char) : Option Nat := do
  let a ← hexDigit? a
  let b ← hexDigit? b
  let c ← hexDigit? c
  let d ← hexDigit? d
  some (((a * 16 + b) * 16 + c) * 16 + d)

def unescape? (letter : Char) : Option Char :=
  if letter = '/' then some '/' else (shortEscapes.find? (·.2 = letter)).map (·.1)

def scanQuoted : List Char → Option (List Piece × List Char)
  | [] => none
  | '"' :: cs => some ([], cs)
  | '\\' :: 'u' :: a :: b :: c :: d :: cs =>
    match hexUnit? a b c d with
    | some n => (scanQuoted cs).map fun (ps, rest) => (.unit n :: ps, rest)
    | none => none
  | '\\' :: letter :: cs =>
    match unescape? letter with
    | some c => (scanQuoted cs).map fun (ps, rest) => (.char c :: ps, rest)
    | none => none
  | c :: cs =>
    if isControl c ∨ c = '\\' then none
    else (scanQuoted cs).map fun (ps, rest) => (.char c :: ps, rest)

def isLeading (n : Nat) : Bool := 0xD800 ≤ n ∧ n < 0xDC00

def isTrailing (n : Nat) : Bool := 0xDC00 ≤ n ∧ n < 0xE000

def pairChar (leading trailing : Nat) : Char :=
  Char.ofNat (0x10000 + (leading - 0xD800) * 0x400 + (trailing - 0xDC00))

/-- The characters that the pieces stand for, after a leading surrogate that waits for its other
half; none if a half stands alone. -/
def joinPieces : Option Nat → List Piece → Option (List Char)
  | none, [] => some []
  | some _, [] => none
  | none, .char c :: ps => (joinPieces none ps).map (c :: ·)
  | some _, .char _ :: _ => none
  | none, .unit n :: ps =>
    if isLeading n then joinPieces (some n) ps
    else if isTrailing n then none
    else (joinPieces none ps).map (Char.ofNat n :: ·)
  | some m, .unit n :: ps =>
    if isTrailing n then (joinPieces none ps).map (pairChar m n :: ·) else none

def textOf (ps : List Piece) : Option String := (joinPieces none ps).map String.ofList

theorem length_of_scanQuoted {cs : List Char} {ps : List Piece} {rest : List Char}
    (h : scanQuoted cs = some (ps, rest)) : rest.length < cs.length := by
  fun_induction scanQuoted cs generalizing ps rest with
  | case1 => cases h
  | case2 => cases h; simp
  | case3 a b c d cs n hn ih =>
    obtain ⟨⟨qs, r⟩, hs, hr⟩ := Option.map_eq_some_iff.1 h
    cases hr
    have := ih hs
    simp only [List.length_cons]
    omega
  | case4 => cases h
  | case5 letter cs _ c hc ih =>
    obtain ⟨⟨qs, r⟩, hs, hr⟩ := Option.map_eq_some_iff.1 h
    cases hr
    have := ih hs
    simp only [List.length_cons]
    omega
  | case6 => cases h
  | case7 => cases h
  | case8 c cs _ _ _ _ ih =>
    obtain ⟨⟨qs, r⟩, hs, hr⟩ := Option.map_eq_some_iff.1 h
    cases hr
    have := ih hs
    simp only [List.length_cons]
    omega

end PocketCalculator.Json
