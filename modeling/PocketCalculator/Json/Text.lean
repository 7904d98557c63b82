import PocketCalculator.Json.Lexeme

/-! From lexemes to values and back. The reader keeps the open arrays and objects on a stack of its
own, so that values may nest to any depth; the writer puts no blanks between lexemes. -/

namespace PocketCalculator.Json

/-- An array or object that waits for the value at hand. Its earlier parts stand in reverse
order. -/
inductive Frame where
  | array (items : List Json)
  | object (members : List (Option String × Json)) (key : Option String)

inductive Stage where
  | value
  | firstItem
  | afterItem (items : List Json)
  | firstMember
  | key (members : List (Option String × Json))
  | colon (members : List (Option String × Json)) (key : Option String)
  | afterMember (members : List (Option String × Json))
  | finished (v : Json)

abbrev Reader := Stage × List Frame

namespace Reader

def start : Reader := (.value, [])

def complete (v : Json) : List Frame → Reader
  | [] => (.finished v, [])
  | .array items :: st => (.afterItem (v :: items), st)
  | .object members key :: st => (.afterMember ((key, v) :: members), st)

def enter (st : List Frame) : Lexeme → Option Reader
  | .null => some (complete .null st)
  | .bool b => some (complete (.bool b) st)
  | .natural n => some (complete (.natural n) st)
  | .decimal => some (complete .decimal st)
  | .string text => some (complete (.string text) st)
  | .openBracket => some (.firstItem, st)
  | .openBrace => some (.firstMember, st)
  | _ => none

def step : Reader → Lexeme → Option Reader
  | (.value, st), l => enter st l
  | (.firstItem, st), .closeBracket => some (complete (.array []) st)
  | (.firstItem, st), l => enter (.array [] :: st) l
  | (.afterItem items, st), .comma => some (.value, .array items :: st)
  | (.afterItem items, st), .closeBracket => some (complete (.array items.reverse) st)
  | (.firstMember, st), .closeBrace => some (complete (.object []) st)
  | (.firstMember, st), .string key => some (.colon [] key, st)
  | (.key members, st), .string key => some (.colon members key, st)
  | (.colon members key, st), .colon => some (.value, .object members key :: st)
  | (.afterMember members, st), .comma => some (.key members, st)
  | (.afterMember members, st), .closeBrace => some (complete (.object members.reverse) st)
  | _, _ => none

def run (r : Reader) : List Lexeme → Option Reader
  | [] => some r
  | l :: ls => (r.step l).bind (run · ls)

theorem run_append (r : Reader) (ls ms : List Lexeme) :
    r.run (ls ++ ms) = (r.run ls).bind (run · ms) := by
  induction ls generalizing r with
  | nil => rfl
  | cons l ls ih =>
    simp only [List.cons_append, run]
    cases r.step l with
    | none => rfl
    | some r' => exact ih r'

end Reader

def ofLexemes? (ls : List Lexeme) : Option Json :=
  match Reader.start.run ls with
  | some (.finished v, _) => some v
  | _ => none

def parse? (text : String) : Option Json := (lexemes? text.toList).bind ofLexemes?

mutual

def lexemes : Json → List Lexeme
  | null => [.null]
  | bool b => [.bool b]
  | natural n => [.natural n]
  | decimal => [.decimal]
  | string text => [.string text]
  | array items => .openBracket :: itemLexemes items ++ [.closeBracket]
  | object members => .openBrace :: memberLexemes members ++ [.closeBrace]

def itemLexemes : List Json → List Lexeme
  | [] => []
  | v :: vs => lexemes v ++ (if vs.isEmpty then [] else .comma :: itemLexemes vs)

def memberLexemes : List (Option String × Json) → List Lexeme
  | [] => []
  | (key, v) :: ms =>
    .string key :: .colon :: lexemes v ++ (if ms.isEmpty then [] else .comma :: memberLexemes ms)

end

def render (v : Json) : String := String.ofList (v.lexemes.flatMap Lexeme.text)

end PocketCalculator.Json
