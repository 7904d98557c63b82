import PocketCalculator.Document.Expression

/-! The entries that can come about: by keys alone from the empty one, or by keys and documents in
any order, where a document may hold whatever tokens it likes. -/

namespace PocketCalculator.Entry

inductive Reached : Entry → Prop where
  | empty : Reached Entry.empty
  | press {e e' : Entry} {k : EditKey} : Reached e → e.press k = .ok e' → Reached e'

inductive Held : Entry → Prop where
  | empty : Held Entry.empty
  | load {text : String} {e : Entry} : Stored.load? text = some e → Held e
  | press {e e' : Entry} {k : EditKey} : Held e → e.press k = .ok e' → Held e'

theorem Reached.held {e : Entry} (h : e.Reached) : e.Held := by
  induction h with
  | empty => exact .empty
  | press _ hk ih => exact .press ih hk

end PocketCalculator.Entry
