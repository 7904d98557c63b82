import PocketCalculator.Document.Keys
import PocketCalculator.Proofs.Document.Settings

/-! Everything that is kept in a document of its own is loaded back as it was saved: plain
alternatives by their names, alternatives with content and records part by part, characters and
texts whatever stands in them. -/

namespace PocketCalculator
open Stored LawfulStored

theorem Stored.load?_save {α : Type} [Stored α] [LawfulStored α] (a : α) :
    load? (save a) = some a :=
  (load?_of_parse? (Json.parse?_render (toJson a))).trans (ofJson?_toJson a)

instance : LawfulStored Char := ⟨fun c => by
  simp only [toJson, ofJson?, Char.toString_eq_singleton, String.toList_singleton]⟩

instance : LawfulStored UInt8 := ⟨fun n => by
  show ((some n.toNat).filter (· < UInt8.size)).map UInt8.ofNat = some n
  have hlt : n.toNat < UInt8.size := n.toNat_lt
  simp [Option.filter, hlt]⟩

instance : LawfulStored KeyClass := ⟨fun c => Json.oneOf?_named (by decide) c.mem_all⟩

instance : LawfulStored KeySet := ⟨fun s => by
  show (ofJson? (toJson s.bits)).map KeySet.mk = some s
  rw [ofJson?_toJson, Option.map_some]⟩

instance : LawfulStored Refusal := ⟨fun r => Json.oneOf?_named (by decide) r.mem_all⟩

instance : LawfulStored Command := ⟨fun c => Json.oneOf?_named (by decide) (by cases c <;> decide)⟩

instance : LawfulStored Button.Group := ⟨fun g => Json.oneOf?_named (by decide) g.mem_all⟩

instance : LawfulStored EditKey := ⟨fun k => by
  cases k with
  | digit c => exact Json.choice?_carrying EditKey.digit rfl rfl c
  | operator op => exact Json.choice?_carrying EditKey.operator rfl rfl op
  | _ => rfl⟩

instance : LawfulStored Key := ⟨fun k => by
  cases k with
  | edit k => exact Json.choice?_carrying Key.edit rfl rfl k
  | command c => exact Json.choice?_carrying Key.command rfl rfl c⟩

instance : LawfulStored Button := ⟨fun b => by
  show (do
    let group ← ofJson? (toJson b.group)
    let symbol ← ofJson? (toJson b.symbol)
    some (Button.mk group symbol)) = some b
  rw [ofJson?_toJson, ofJson?_toJson]
  rfl⟩

instance : LawfulStored Messages :=
  ⟨fun m => Messages.ofJson?_of_carriedBy m.carriedBy_toJson⟩

instance : LawfulStored Settings :=
  ⟨fun s => Settings.ofJson?_of_carriedBy s.carriedBy_toJson⟩

def Restored (α : Type) [Stored α] : Prop := ∀ a : α, load? (save a) = some a

/-- Nothing is lost in a document, valid settings or not and whatever texts and bits there are. -/
theorem restored_all :
    Restored Operator ∧ Restored Sign ∧ Restored Operand ∧ Restored Token ∧ Restored EditKey ∧
      Restored Command ∧ Restored Key ∧ Restored Button.Group ∧ Restored Button ∧
      Restored KeyClass ∧ Restored KeySet ∧ Restored Refusal ∧ Restored Messages ∧
      Restored Settings :=
  ⟨load?_save, load?_save, load?_save, load?_save, load?_save, load?_save, load?_save, load?_save,
    load?_save, load?_save, load?_save, load?_save, load?_save, load?_save⟩

end PocketCalculator
