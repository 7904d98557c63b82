import PocketCalculator.Json.Text

/-! Values that are kept in documents. A record is an object of its fields or an array of them in
order, an alternative is named by a string or by the only key of an object that carries its content,
and a whole number is never written with a sign, a point or an exponent. -/

namespace PocketCalculator

class Stored (α : Type) where
  toJson : α → Json
  ofJson? : Json → Option α

namespace Stored
variable {α : Type} [Stored α]

def save (a : α) : String := (toJson a).render

def load? (text : String) : Option α := (Json.parse? text).bind ofJson?

def field? (absent : Option α) : Option Json → Option α
  | none => absent
  | some j => ofJson? j

end Stored

namespace Json

/-- The fields of a record in the order of `names`, left out ones being `none`. A field may not
occur twice; members of other names are passed over, however often they occur. -/
def fields? (names : List String) : Json → Option (List (Option Json))
  | object members =>
    if members.all (·.1.isSome) ∧ names.all fun name => members.countP (·.1 = some name) ≤ 1 then
      some (names.map fun name => (members.find? (·.1 = some name)).map (·.2))
    else none
  | array items =>
    if items.length ≤ names.length then
      some (items.map some ++ List.replicate (names.length - items.length) none)
    else none
  | _ => none

def record (fields : List (String × Json)) : Json :=
  object (fields.map fun (name, j) => (some name, j))

def alternative? : Json → Option (String × Option Json)
  | string (some name) => some (name, none)
  | object [(some name, content)] => some (name, some content)
  | _ => none

def isNull : Json → Bool
  | null => true
  | _ => false

/-- One of several alternatives: a `plain` one has no content, for which null may stand. -/
def choice? {α : Type} (plain : List (String × α)) (carrying : List (String × (Json → Option α)))
    (j : Json) : Option α :=
  match j.alternative? with
  | none => none
  | some (name, none) => plain.lookup name
  | some (name, some content) =>
    match plain.lookup name with
    | some a => if content.isNull then some a else none
    | none => (carrying.lookup name).bind (· content)

def oneOf? {α : Type} (all : List α) (name : α → String) : Json → Option α :=
  choice? (all.map fun a => (name a, a)) []

def named (name : String) : Json := string (some name)

def carrying (name : String) (content : Json) : Json := record [(name, content)]

def natural? : Json → Option Nat
  | natural n => some n
  | _ => none

end Json

instance : Stored String where
  toJson s := .string (some s)
  ofJson?
    | .string text => text
    | _ => none

instance : Stored Char where
  toJson c := .string (some c.toString)
  ofJson?
    | .string (some s) => match s.toList with
      | [c] => some c
      | _ => none
    | _ => none

instance : Stored UInt8 where
  toJson n := .natural n.toNat
  ofJson? j := (j.natural?.filter (· < UInt8.size)).map UInt8.ofNat

instance : Stored UInt64 where
  toJson n := .natural n.toNat
  ofJson? j := (j.natural?.filter (· < UInt64.size)).map UInt64.ofNat

instance {α : Type} [Stored α] : Stored (List α) where
  toJson xs := .array (xs.map Stored.toJson)
  ofJson?
    | .array items => items.mapM Stored.ofJson?
    | _ => none

end PocketCalculator
