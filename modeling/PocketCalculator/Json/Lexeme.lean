import PocketCalculator.Json.Quoted
import PocketCalculator.Json.Value

/-! From text to lexemes and back. Blanks between lexemes are dropped; two lexemes may touch, and
that values are kept apart by commas is left to the grammar. -/

namespace PocketCalculator.Json

def isSpacing (c : Char) : Bool := c = ' ' ∨ c = '\t' ∨ c = '\n' ∨ c = '\r'

def scanDigits (cs : List Char) : List Char × List Char :=
  (cs.takeWhile Char.isDigit, cs.dropWhile Char.isDigit)

/-- The whole part of a number: a lone zero, or digits of which the first is none. -/
def scanWhole : List Char → Option (Nat × List Char)
  | [] => none
  | '0' :: cs => some (0, cs)
  | c :: cs =>
    if c.isDigit then
      let (ds, rest) := scanDigits cs
      some (Nat.ofDigitChars 10 (c :: ds) 0, rest)
    else none

def skipDigits (cs : List Char) : Option (List Char) :=
  match scanDigits cs with
  | ([], _) => none
  | (_, rest) => some rest

def skipFraction : List Char → Option (Bool × List Char)
  | '.' :: cs => (skipDigits cs).map (true, ·)
  | cs => some (false, cs)

def skipSign : List Char → List Char
  | '+' :: cs => cs
  | '-' :: cs => cs
  | cs => cs

def skipExponent : List Char → Option (Bool × List Char)
  | 'e' :: cs => (skipDigits (skipSign cs)).map (true, ·)
  | 'E' :: cs => (skipDigits (skipSign cs)).map (true, ·)
  | cs => some (false, cs)

def scanNumber (cs : List Char) : Option (Lexeme × List Char) := do
  let (n, cs) ← scanWhole cs
  let (fraction, cs) ← skipFraction cs
  let (exponent, cs) ← skipExponent cs
  some (if fraction ∨ exponent then .decimal else .natural n, cs)

def scanLexeme : List Char → Option (Lexeme × List Char)
  | '[' :: cs => some (.openBracket, cs)
  | ']' :: cs => some (.closeBracket, cs)
  | '\x7b' :: cs => some (.openBrace, cs)
  | '\x7d' :: cs => some (.closeBrace, cs)
  | ',' :: cs => some (.comma, cs)
  | ':' :: cs => some (.colon, cs)
  | 'n' :: 'u' :: 'l' :: 'l' :: cs => some (.null, cs)
  | 't' :: 'r' :: 'u' :: 'e' :: cs => some (.bool true, cs)
  | 'f' :: 'a' :: 'l' :: 's' :: 'e' :: cs => some (.bool false, cs)
  | '"' :: cs => (scanQuoted cs).map fun (ps, rest) => (.string (textOf ps), rest)
  | '-' :: cs => (scanNumber cs).map fun (_, rest) => (.decimal, rest)
  | cs => scanNumber cs

theorem length_of_scanWhole {cs rest : List Char} {n : Nat} (h : scanWhole cs = some (n, rest)) :
    rest.length < cs.length := by
  unfold scanWhole at h
  split at h
  · cases h
  · cases h; simp
  · split at h
    · cases h
      exact Nat.lt_succ_of_le (List.dropWhile_sublist _).length_le
    · cases h

theorem length_of_skipDigits {cs rest : List Char} (h : skipDigits cs = some rest) :
    rest.length ≤ cs.length := by
  unfold skipDigits at h
  split at h
  · cases h
  · rename_i hs
    cases h
    cases hs
    exact (List.dropWhile_sublist _).length_le

theorem length_skipSign (cs : List Char) : (skipSign cs).length ≤ cs.length := by
  unfold skipSign
  split <;> simp

theorem length_of_skipFraction {cs rest : List Char} {b : Bool}
    (h : skipFraction cs = some (b, rest)) : rest.length ≤ cs.length := by
  unfold skipFraction at h
  split at h
  · obtain ⟨r, hr, e⟩ := Option.map_eq_some_iff.1 h
    cases e
    exact Nat.le_succ_of_le (length_of_skipDigits hr)
  · cases h; exact Nat.le_refl _

theorem length_of_skipExponent {cs rest : List Char} {b : Bool}
    (h : skipExponent cs = some (b, rest)) : rest.length ≤ cs.length := by
  unfold skipExponent at h
  split at h
  · obtain ⟨r, hr, e⟩ := Option.map_eq_some_iff.1 h
    cases e
    exact Nat.le_succ_of_le (Nat.le_trans (length_of_skipDigits hr) (length_skipSign _))
  · obtain ⟨r, hr, e⟩ := Option.map_eq_some_iff.1 h
    cases e
    exact Nat.le_succ_of_le (Nat.le_trans (length_of_skipDigits hr) (length_skipSign _))
  · cases h; exact Nat.le_refl _

theorem length_of_scanNumber {cs rest : List Char} {l : Lexeme}
    (h : scanNumber cs = some (l, rest)) : rest.length < cs.length := by
  simp only [scanNumber, Option.bind_eq_bind, Option.bind_eq_some_iff, Prod.exists,
    Option.some.injEq] at h
  obtain ⟨n, cs₁, h₁, b, cs₂, h₂, c, cs₃, h₃, e⟩ := h
  cases e
  have := length_of_scanWhole h₁
  have := length_of_skipFraction h₂
  have := length_of_skipExponent h₃
  omega

theorem length_of_scanLexeme {cs rest : List Char} {l : Lexeme}
    (h : scanLexeme cs = some (l, rest)) : rest.length < cs.length := by
  unfold scanLexeme at h
  split at h
  case h_10 =>
    obtain ⟨⟨ps, r⟩, hr, e⟩ := Option.map_eq_some_iff.1 h
    cases e
    exact Nat.lt_succ_of_lt (length_of_scanQuoted hr)
  case h_11 =>
    obtain ⟨⟨m, r⟩, hr, e⟩ := Option.map_eq_some_iff.1 h
    cases e
    exact Nat.lt_succ_of_lt (length_of_scanNumber hr)
  case h_12 => exact length_of_scanNumber h
  all_goals cases h; simp only [List.length_cons]; omega

def lexemes? : List Char → Option (List Lexeme)
  | [] => some []
  | c :: cs =>
    if isSpacing c then lexemes? cs
    else match _h : scanLexeme (c :: cs) with
      | none => none
      | some (l, rest) => (lexemes? rest).map (l :: ·)
termination_by cs => cs.length
decreasing_by
  · simp
  · exact length_of_scanLexeme ‹_›

/-- A number that is no natural is written in its shortest form, and a string without text as
`quote` does. -/
def Lexeme.text : Lexeme → List Char
  | openBracket => ['[']
  | closeBracket => [']']
  | openBrace => ['\x7b']
  | closeBrace => ['\x7d']
  | comma => [',']
  | colon => [':']
  | null => ['n', 'u', 'l', 'l']
  | bool true => ['t', 'r', 'u', 'e']
  | bool false => ['f', 'a', 'l', 's', 'e']
  | natural n => Nat.toDigits 10 n
  | decimal => ['-', '0']
  | string text => quote text

end PocketCalculator.Json
