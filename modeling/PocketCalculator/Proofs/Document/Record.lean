import PocketCalculator.Document.Expression
import PocketCalculator.Json.RoundTrip
import Mathlib.Logic.Basic

/-! What is written into a document is read back from it, and its reader does not look at members
of names that it does not know. -/

namespace PocketCalculator

namespace Json
variable {names : List String} {name : String}

def membersWithout (names : List String) (members : List (Option String × Json)) :
    List (Option String × Json) :=
  members.filter fun m => m.1 ∉ names.map some

def without (names : List String) : Json → Json
  | object members => object (membersWithout names members)
  | j => j

theorem not_mem_names_and_iff (h : name ∉ names) {key : Option String} :
    key ∉ names.map some ∧ key = some name ↔ key = some name := by
  rw [and_iff_right_iff_imp]
  rintro rfl hmem
  obtain ⟨other, hother, heq⟩ := List.mem_map.1 hmem
  exact h (Option.some.inj heq ▸ hother)

theorem all_isSome_membersWithout (names : List String) (members : List (Option String × Json)) :
    (membersWithout names members).all (·.1.isSome) = members.all (·.1.isSome) := by
  rw [membersWithout, List.all_filter]
  congr 1
  funext m
  by_cases hm : m.1 ∈ names.map some
  · obtain ⟨other, -, hother⟩ := List.mem_map.1 hm
    simp [← hother]
  · simp [hm]

theorem countP_membersWithout (h : name ∉ names) (members : List (Option String × Json)) :
    (membersWithout names members).countP (·.1 = some name) =
      members.countP (·.1 = some name) := by
  rw [membersWithout, List.countP_filter]
  congr 1
  funext m
  rw [Bool.and_comm, ← Bool.decide_and, decide_eq_decide, not_mem_names_and_iff h]

theorem find?_membersWithout (h : name ∉ names) (members : List (Option String × Json)) :
    (membersWithout names members).find? (·.1 = some name) =
      members.find? (·.1 = some name) := by
  rw [membersWithout, List.find?_filter]
  congr 1
  funext m
  rw [decide_eq_decide, decide_eq_true_iff, decide_eq_true_iff, not_mem_names_and_iff h]

theorem fields?_without {others : List String} (h : ∀ name ∈ names, name ∉ others) (j : Json) :
    (j.without others).fields? names = j.fields? names := by
  cases j with
  | object members =>
    have hcounts : (names.all fun name =>
        (membersWithout others members).countP (·.1 = some name) ≤ 1) =
          names.all fun name => members.countP (·.1 = some name) ≤ 1 := by
      rw [Bool.eq_iff_iff, List.all_eq_true, List.all_eq_true]
      exact forall₂_congr fun name hn => by rw [countP_membersWithout (h name hn)]
    have hfinds : (names.map fun name =>
        ((membersWithout others members).find? (·.1 = some name)).map (·.2)) =
          names.map fun name => (members.find? (·.1 = some name)).map (·.2) :=
      List.map_congr_left fun name hn => by rw [find?_membersWithout (h name hn)]
    rw [without, fields?, fields?, all_isSome_membersWithout, hcounts, hfinds]
  | _ => rfl

def valuesOf (name : String) (members : List (Option String × Json)) : List Json :=
  (members.filter (·.1 = some name)).map (·.2)

/-- An object that has each of the fields once if there is a value for it and else not at all. Their
order is free, and so is what else the object has. -/
def Carries (fields : List (String × Option Json)) : Json → Prop
  | object members =>
    (∀ m ∈ members, m.1.isSome = true) ∧ ∀ f ∈ fields, valuesOf f.1 members = f.2.toList
  | _ => False

theorem countP_eq_length_valuesOf (name : String) (members : List (Option String × Json)) :
    members.countP (·.1 = some name) = (valuesOf name members).length := by
  rw [valuesOf, List.length_map, List.countP_eq_length_filter]

theorem find?_eq_head?_valuesOf (name : String) (members : List (Option String × Json)) :
    (members.find? (·.1 = some name)).map (·.2) = (valuesOf name members).head? := by
  rw [valuesOf, List.head?_map, List.head?_filter]

theorem fields?_of_carries {fields : List (String × Option Json)} {j : Json}
    (h : j.Carries fields) : j.fields? (fields.map (·.1)) = some (fields.map (·.2)) := by
  cases j with
  | object members =>
    obtain ⟨hnamed, hvalues⟩ := h
    have hcounts : ∀ f ∈ fields, members.countP (·.1 = some f.1) ≤ 1 := by
      intro f hf
      rw [countP_eq_length_valuesOf, hvalues f hf]
      exact Option.length_toList_le
    have hfinds : (fields.map (·.1)).map (fun name =>
        (members.find? (·.1 = some name)).map (·.2)) = fields.map (·.2) := by
      rw [List.map_map]
      refine List.map_congr_left fun f hf => ?_
      show (members.find? (·.1 = some f.1)).map (·.2) = f.2
      rw [find?_eq_head?_valuesOf, hvalues f hf, Option.head?_toList]
    rw [fields?, if_pos, hfinds]
    exact ⟨List.all_eq_true.2 hnamed, by simpa using hcounts⟩
  | _ => exact h.elim

theorem filter_eq_singleton {fields : List (String × Json)} (h : (fields.map (·.1)).Nodup)
    {f : String × Json} (hf : f ∈ fields) : fields.filter (·.1 = f.1) = [f] := by
  induction fields with
  | nil => cases hf
  | cons g fields ih =>
    rw [List.map_cons, List.nodup_cons] at h
    obtain ⟨hg, hrest⟩ := h
    rcases List.mem_cons.1 hf with rfl | hf
    · have hnone : fields.filter (·.1 = f.1) = [] := by
        rw [List.filter_eq_nil_iff]
        intro g hmem he
        exact hg (List.mem_map.2 ⟨g, hmem, of_decide_eq_true he⟩)
      rw [List.filter_cons_of_pos (by simp), hnone]
    · have hne : g.1 ≠ f.1 := fun he => hg (List.mem_map.2 ⟨f, hf, he.symm⟩)
      rw [List.filter_cons_of_neg (by simpa using hne), ih hrest hf]

theorem carries_record {fields : List (String × Json)} (h : (fields.map (·.1)).Nodup) :
    (record fields).Carries (fields.map fun f => (f.1, some f.2)) := by
  refine ⟨fun m hm => ?_, fun f hf => ?_⟩
  · obtain ⟨f, -, rfl⟩ := List.mem_map.1 hm
    rfl
  · obtain ⟨f, hmem, rfl⟩ := List.mem_map.1 hf
    have hfilter : (fields.map fun g => (some g.1, g.2)).filter (·.1 = some f.1) =
        (fields.filter (·.1 = f.1)).map fun g => (some g.1, g.2) := by
      simp [List.filter_map, Function.comp_def]
    show valuesOf f.1 (fields.map fun g => (some g.1, g.2)) = [f.2]
    rw [valuesOf, hfilter, filter_eq_singleton h hmem]
    rfl

end Json

open Stored

theorem Stored.load?_of_parse? {α : Type} [Stored α] {text : String} {j : Json}
    (h : Json.parse? text = some j) : load? text = (ofJson? j : Option α) := by
  rw [load?, h, Option.bind_some]

class LawfulStored (α : Type) [Stored α] : Prop where
  ofJson?_toJson (a : α) : ofJson? (toJson a) = some a

open LawfulStored

namespace Json
variable {α β : Type}

theorem lookup_of_mem {pairs : List (String × α)} (h : (pairs.map (·.1)).Nodup) {p : String × α}
    (hp : p ∈ pairs) : pairs.lookup p.1 = some p.2 := by
  induction pairs with
  | nil => cases hp
  | cons q pairs ih =>
    rw [List.map_cons, List.nodup_cons] at h
    obtain ⟨hq, hrest⟩ := h
    rcases List.mem_cons.1 hp with rfl | hp
    · exact List.lookup_cons_self
    · have hne : p.1 ≠ q.1 := fun he => hq (he ▸ List.mem_map_of_mem hp)
      rw [List.lookup_cons, beq_eq_false_iff_ne.2 hne]
      exact ih hrest hp

theorem oneOf?_named {all : List α} {name : α → String} (h : (all.map name).Nodup) {a : α}
    (ha : a ∈ all) : oneOf? all name (named (name a)) = some a := by
  refine lookup_of_mem (p := (name a, a)) ?_ (List.mem_map_of_mem ha)
  rwa [List.map_map]

theorem choice?_carrying [Stored β] [LawfulStored β] {plain : List (String × α)}
    {others : List (String × (Json → Option α))} {name : String} (make : β → α)
    (hplain : plain.lookup name = none)
    (hname : others.lookup name = some fun j => (ofJson? j).map make) (b : β) :
    choice? plain others (carrying name (toJson b)) = some (make b) := by
  have hparts : (carrying name (toJson b)).alternative? = some (name, some (toJson b)) := rfl
  simp only [choice?, hparts, hplain, hname, Option.bind_some, ofJson?_toJson, Option.map_some]

end Json

instance : LawfulStored String := ⟨fun _ => rfl⟩

instance : LawfulStored UInt64 := ⟨fun n => by
  show ((some n.toNat).filter (· < UInt64.size)).map UInt64.ofNat = some n
  have hlt : n.toNat < UInt64.size := n.toNat_lt
  simp [Option.filter, hlt]⟩

instance : LawfulStored Operator := ⟨fun op => by cases op <;> rfl⟩

instance : LawfulStored Sign := ⟨fun s => by cases s <;> rfl⟩

instance : LawfulStored Operand := ⟨fun o => by
  show (do
    let digits ← ofJson? (toJson o.digits)
    let sign ← ofJson? (toJson o.sign)
    some (Operand.mk digits sign)) = some o
  rw [ofJson?_toJson, ofJson?_toJson]
  rfl⟩

instance : LawfulStored Token := ⟨fun t => by
  cases t with
  | operand o => exact Json.choice?_carrying Token.operand rfl rfl o
  | operator op => exact Json.choice?_carrying Token.operator rfl rfl op
  | _ => rfl⟩

instance {α : Type} [Stored α] [LawfulStored α] : LawfulStored (List α) := ⟨fun xs => by
  show (xs.map toJson).mapM ofJson? = some xs
  induction xs with
  | nil => rfl
  | cons x xs ih =>
    rw [List.map_cons, List.mapM_cons, ofJson?_toJson, ih]
    rfl⟩

end PocketCalculator
