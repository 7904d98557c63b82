import PocketCalculator.Document.Expression
import PocketCalculator.Keypad.Button

/-! Documents of keys and buttons. -/

namespace PocketCalculator
open Stored

instance : Stored EditKey where
  toJson
    | .digit c => .carrying "Digit" (toJson c)
    | .signFlip => .named "SignFlip"
    | .decimalPoint => .named "DecimalPoint"
    | .openBracket => .named "OpenBracket"
    | .closeBracket => .named "CloseBracket"
    | .operator op => .carrying "Operator" (toJson op)
  ofJson? := Json.choice?
    [("SignFlip", .signFlip), ("DecimalPoint", .decimalPoint), ("OpenBracket", .openBracket),
      ("CloseBracket", .closeBracket)]
    [("Digit", fun j => (ofJson? j).map .digit), ("Operator", fun j => (ofJson? j).map .operator)]

instance : Stored Command where
  toJson c := .named c.name
  ofJson? := Json.oneOf? Command.all Command.name

instance : Stored Key where
  toJson
    | .edit k => .carrying "Edit" (toJson k)
    | .command c => .carrying "Action" (toJson c)
  ofJson? := Json.choice? []
    [("Edit", fun j => (ofJson? j).map .edit), ("Action", fun j => (ofJson? j).map .command)]

instance : Stored Button.Group where
  toJson g := .named g.name
  ofJson? := Json.oneOf? Button.Group.all Button.Group.name

instance : Stored Button where
  toJson b := .record [("category", toJson b.group), ("symbol", toJson b.symbol)]
  ofJson? j := match j.fields? ["category", "symbol"] with
    | some [group, symbol] => do
      let group ← field? none group
      let symbol ← field? none symbol
      some ⟨group, symbol⟩
    | _ => none

end PocketCalculator
