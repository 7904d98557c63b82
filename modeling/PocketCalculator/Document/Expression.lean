import PocketCalculator.Document.Basic
import PocketCalculator.Entry.Basic

/-! Documents of expressions and of entries. Of an entry only what was typed is read; the facts that
it keeps about it are written for other readers and derived afresh. -/

namespace PocketCalculator
open Stored

instance : Stored Operator where
  toJson op := .named op.name
  ofJson? := Json.oneOf? Operator.all Operator.name

instance : Stored Sign where
  toJson s := .named s.name
  ofJson? := Json.oneOf? Sign.all Sign.name

instance : Stored Operand where
  toJson o := .record [("digits", toJson o.digits), ("sign", toJson o.sign)]
  ofJson? j := match j.fields? ["digits", "sign"] with
    | some [digits, sign] => do
      let digits ← field? none digits
      let sign ← field? none sign
      some ⟨digits, sign⟩
    | _ => none

instance : Stored Token where
  toJson
    | .operand o => .carrying "Operand" (toJson o)
    | .operator op => .carrying "Operator" (toJson op)
    | .openBracket => .named "OpenBracket"
    | .closeBracket => .named "CloseBracket"
  ofJson? := Json.choice?
    [("OpenBracket", .openBracket), ("CloseBracket", .closeBracket)]
    [("Operand", fun j => (ofJson? j).map .operand),
      ("Operator", fun j => (ofJson? j).map .operator)]

instance : Stored KeyClass where
  toJson c := .named c.name
  ofJson? := Json.oneOf? KeyClass.all KeyClass.name

instance : Stored KeySet where
  toJson s := toJson s.bits
  ofJson? j := (ofJson? j).map KeySet.mk

instance : Stored Refusal where
  toJson r := .named r.name
  ofJson? := Json.oneOf? Refusal.all Refusal.name

instance : Stored Entry where
  toJson e := .record
    [("current_number", toJson e.digits), ("current_sign", toJson e.sign),
      ("has_decimal_point", .bool e.hasPoint), ("open_brackets", .natural e.openBrackets),
      ("allowed_next", toJson e.allowed), ("tokens", toJson e.tokens)]
  ofJson? j := match j.fields? ["current_number", "current_sign", "tokens"] with
    | some [digits, sign, tokens] => do
      let digits ← field? (some "") digits
      let sign ← field? (some Sign.positive) sign
      let tokens ← field? (some []) tokens
      some (Entry.restore digits sign tokens)
    | _ => none

end PocketCalculator
