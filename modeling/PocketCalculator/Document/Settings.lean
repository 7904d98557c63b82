import PocketCalculator.Document.Basic
import PocketCalculator.Settings

/-! Documents of settings. What a document leaves out keeps its standard value. -/

namespace PocketCalculator
open Stored

instance : Stored Messages where
  toJson m := .record (Refusal.all.map fun r => (r.field, toJson (m.text r)))
  ofJson? j := match j.fields? (Refusal.all.map Refusal.field) with
    | some [a, b, c, d, e, f, g, h] => do
      let expectedNumber ← field? (some Messages.standard.expectedNumber) a
      let signChangeNotAllowed ← field? (some Messages.standard.signChangeNotAllowed) b
      let decimalPointAlreadyPlaced ← field? (some Messages.standard.decimalPointAlreadyPlaced) c
      let openBracketNotAllowed ← field? (some Messages.standard.openBracketNotAllowed) d
      let closeBracketNotAllowed ← field? (some Messages.standard.closeBracketNotAllowed) e
      let operatorNotAllowed ← field? (some Messages.standard.operatorNotAllowed) f
      let unbalancedBrackets ← field? (some Messages.standard.unbalancedBrackets) g
      let invalidExpression ← field? (some Messages.standard.invalidExpression) h
      some
        { expectedNumber, signChangeNotAllowed, decimalPointAlreadyPlaced, openBracketNotAllowed,
          closeBracketNotAllowed, operatorNotAllowed, unbalancedBrackets, invalidExpression }
    | _ => none

instance : Stored Settings where
  toJson s := .record
    [("messages", toJson s.messages), ("fraction_digits", toJson s.fractionDigits)]
  ofJson? j := match j.fields? ["messages", "fraction_digits"] with
    | some [messages, fractionDigits] => do
      let messages ← field? (some Messages.standard) messages
      let fractionDigits ← field? (some Settings.standard.fractionDigits) fractionDigits
      some ⟨messages, fractionDigits⟩
    | _ => none

def Settings.ofDocument (text : String) : Except Settings.Invalid Settings :=
  match (load? text : Option Settings) with
  | none => .error .unreadable
  | some s => s.validate

end PocketCalculator
