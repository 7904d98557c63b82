import PocketCalculator.Entry.Key
import PocketCalculator.Entry.Rule
import PocketCalculator.Expression.Evaluation
import PocketCalculator.Expression.ReversePolish

/-! An expression being entered. Besides what was typed an entry holds three facts about it that
decide on the next key: the point in the number, the open brackets and the admitted classes. Keys
bring them up to date one by one, and `Entry.restore` derives them afresh from what was typed. -/

namespace PocketCalculator

structure Entry where
  digits : String
  sign : Sign
  hasPoint : Bool
  openBrackets : Nat
  allowed : KeySet
  tokens : List Token
  deriving DecidableEq, Repr

/-- The brackets left open; a closing bracket without partner counts for nothing. -/
def openBracketCount (tokens : List Token) : Nat :=
  tokens.foldl (fun n t => match t with | .openBracket => n + 1 | .closeBracket => n - 1 | _ => n) 0

namespace Entry

def derivedAllowed (e : Entry) : KeySet :=
  admitted (.ofText e.digits) e.hasPoint e.openBrackets (e.tokens.getLast?.map Token.kind)

def refresh (e : Entry) : Entry := { e with allowed := e.derivedAllowed }

def restore (digits : String) (sign : Sign) (tokens : List Token) : Entry :=
  refresh
    { digits, sign, tokens, allowed := KeySet.empty
      hasPoint := decide ('.' ∈ digits.toList), openBrackets := openBracketCount tokens }

def empty : Entry := restore "" .positive []

def allows (e : Entry) (c : KeyClass) : Bool := e.allowed.contains c

def pending? (e : Entry) : Option Operand := if e.digits = "" then none else some ⟨e.digits, e.sign⟩

def isEmpty (e : Entry) : Bool := decide (e.tokens = [] ∧ e.digits = "")

def equation (e : Entry) : String :=
  String.join (e.tokens.map Token.shown) ++ Operand.shown ⟨e.digits, e.sign⟩

def typed (e : Entry) : List String :=
  e.tokens.map Token.plain ++ e.pending?.toList.map Operand.plain

def finishOperand (e : Entry) : Entry :=
  match e.pending? with
  | none => e
  | some o =>
    { e with
      digits := "", sign := .positive, hasPoint := false, tokens := e.tokens ++ [.operand o] }

def append (e : Entry) (t : Token) : Entry :=
  { e with
    tokens := e.tokens ++ [t]
    openBrackets := match t with
      | .openBracket => e.openBrackets + 1
      | .closeBracket => e.openBrackets - 1
      | _ => e.openBrackets }

/-- The entry after a key that is admitted. A sign does not bear on what may follow. -/
def edit (e : Entry) : EditKey → Entry
  | .digit c => refresh { e with digits := e.digits.push c }
  | .signFlip => { e with sign := e.sign.flip }
  | .decimalPoint => refresh { e with digits := e.digits.push '.', hasPoint := true }
  | .openBracket => (e.finishOperand.append .openBracket).refresh
  | .closeBracket => (e.finishOperand.append .closeBracket).refresh
  | .operator op => (e.finishOperand.append (.operator op)).refresh

def press (e : Entry) (k : EditKey) : Except Refusal Entry :=
  if e.allows k.requirement then
    match k with
    | .digit c => if c.isDigit then .ok (e.edit k) else .error .expectedNumber
    | _ => .ok (e.edit k)
  else .error k.refusal

theorem press_eq_ok_iff {e e' : Entry} {k : EditKey} :
    e.press k = .ok e' ↔
      e.allows k.requirement = true ∧ (∀ c, k = .digit c → c.isDigit = true) ∧ e.edit k = e' := by
  unfold press
  split
  · rename_i ha
    cases k <;> simp [ha]
    split <;> simp_all
  · rename_i ha
    simp [ha]

def evaluate (e : Entry) : Except Refusal Float :=
  if e.openBrackets ≠ 0 then .error .unbalancedBrackets
  else match ReversePolish.evaluate (ReversePolish.ofTyped e.typed) with
    | .ok x => .ok x
    | .error _ => .error .invalidExpression

end Entry
end PocketCalculator
