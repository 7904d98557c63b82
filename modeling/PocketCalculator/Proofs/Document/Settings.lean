import PocketCalculator.Document.Settings
import PocketCalculator.Proofs.Document.Record
import Mathlib.Data.List.TakeWhile

/-! Settings that a document gives in part, `partly` standing for its values and the standard ones
for the rest. The document overrides the standard field by field, the order of its members does not
matter and unknown ones are passed over. What comes out is accepted if it is valid, and otherwise
every violation is reported once. -/

namespace PocketCalculator
open Stored

theorem Stored.field?_carried {α : Type} [Stored α] [LawfulStored α] (absent a : α)
    (carried : Bool) : field? (some absent) (if carried then some (toJson a) else none) =
      some (if carried then a else absent) := by
  cases carried with
  | true => exact LawfulStored.ofJson?_toJson a
  | false => rfl

namespace Messages

def ofText (text : Refusal → String) : Messages where
  expectedNumber := text .expectedNumber
  signChangeNotAllowed := text .signChangeNotAllowed
  decimalPointAlreadyPlaced := text .decimalPointAlreadyPlaced
  openBracketNotAllowed := text .openBracketNotAllowed
  closeBracketNotAllowed := text .closeBracketNotAllowed
  operatorNotAllowed := text .operatorNotAllowed
  unbalancedBrackets := text .unbalancedBrackets
  invalidExpression := text .invalidExpression

@[simp] theorem text_ofText (text : Refusal → String) (r : Refusal) :
    (ofText text).text r = text r := by cases r <;> rfl

@[simp] theorem ofText_text (m : Messages) : ofText m.text = m := rfl

def partly (m : Messages) (carried : Refusal → Bool) : Messages :=
  ofText fun r => if carried r then m.text r else standard.text r

def CarriedBy (m : Messages) (carried : Refusal → Bool) (j : Json) : Prop :=
  j.Carries (Refusal.all.map fun r =>
    (r.field, if carried r then some (toJson (m.text r)) else none))

variable {m : Messages} {carried : Refusal → Bool} {j : Json}

theorem ofJson?_of_carriedBy (h : m.CarriedBy carried j) : ofJson? j = some (m.partly carried) := by
  have hfields : j.fields? (Refusal.all.map Refusal.field) = some (Refusal.all.map fun r =>
      if carried r then some (toJson (m.text r)) else none) := Json.fields?_of_carries h
  simp only [ofJson?, hfields]
  simp only [Refusal.all, List.map_cons, List.map_nil]
  simp only [field?_carried]
  rfl

theorem carriedBy_toJson (m : Messages) : m.CarriedBy (fun _ => true) (toJson m) := by
  have hnames : ((Refusal.all.map fun r => (r.field, toJson (m.text r))).map (·.1)).Nodup := by
    show (Refusal.all.map Refusal.field).Nodup
    decide
  exact Json.carries_record hnames

end Messages

namespace Settings

def partly (s : Settings) (carried : Refusal → Bool) (digits : Bool) : Settings where
  messages := s.messages.partly carried
  fractionDigits := if digits then s.fractionDigits else standard.fractionDigits

/-- A document that gives just these settings. One that gives no wording may do without the
messages altogether. -/
def CarriedBy (s : Settings) (carried : Refusal → Bool) (digits : Bool) (j : Json) : Prop :=
  ∃ messages : Option Json,
    (match messages with
      | some messages => s.messages.CarriedBy carried messages
      | none => ∀ r, carried r = false) ∧
    j.Carries [("messages", messages),
      ("fraction_digits", if digits then some (toJson s.fractionDigits) else none)]

def trim (s : String) : String :=
  .ofList ((s.toList.dropWhile isWhiteSpace).reverse.dropWhile isWhiteSpace).reverse

structure Valid (s : Settings) : Prop where
  worded : ∀ r, trim (s.messages.text r) ≠ ""
  short : s.fractionDigits.toNat ≤ 10

def conceivable (s : Settings) : List Violation :=
  Refusal.all.map .blankMessage ++ [.fractionDigitsOutOfRange s.fractionDigits.toNat]

def Violates (s : Settings) : Violation → Prop
  | .blankMessage r => trim (s.messages.text r) = ""
  | .fractionDigitsOutOfRange found => found = s.fractionDigits.toNat ∧ 10 < found

variable {s : Settings} {carried : Refusal → Bool} {digits : Bool} {j : Json} {text : String}

theorem ofJson?_of_carriedBy (h : s.CarriedBy carried digits j) :
    ofJson? j = some (s.partly carried digits) := by
  obtain ⟨messages, hmessages, hcarries⟩ := h
  have hfields : j.fields? ["messages", "fraction_digits"] =
      some [messages, if digits then some (toJson s.fractionDigits) else none] :=
    Json.fields?_of_carries hcarries
  have hread : field? (some Messages.standard) messages = some (s.messages.partly carried) := by
    cases messages with
    | some messages => exact Messages.ofJson?_of_carriedBy hmessages
    | none =>
      have hnone : carried = fun _ => false := funext hmessages
      rw [hnone]
      rfl
  simp only [ofJson?, hfields, hread, field?_carried]
  rfl

theorem carriedBy_toJson (s : Settings) : s.CarriedBy (fun _ => true) true (toJson s) := by
  have hnames : ["messages", "fraction_digits"].Nodup := by decide
  exact ⟨some (toJson s.messages), s.messages.carriedBy_toJson, Json.carries_record hnames⟩

theorem trim_eq_empty_iff {text : String} : trim text = "" ↔ isBlank text = true := by
  have hend : ∀ cs : List Char, cs.dropWhile isWhiteSpace = [] ↔ ∀ c ∈ cs, isWhiteSpace c = true :=
    fun cs => List.dropWhile_eq_nil_iff
  rw [trim, String.ofList_eq_empty_iff, List.reverse_eq_nil_iff, hend, isBlank, List.all_eq_true,
    ← hend text.toList]
  simp only [List.mem_reverse]
  -- What is left by the first cut begins with a character that is no blank.
  have hfirst := List.head?_dropWhile_not isWhiteSpace text.toList
  constructor
  · intro hblank
    cases hd : text.toList.dropWhile isWhiteSpace with
    | nil => rfl
    | cons c cs =>
      rw [hd] at hblank hfirst
      have hc : isWhiteSpace c = false := hfirst
      rw [hblank c List.mem_cons_self] at hc
      cases hc
  · intro hnil
    rw [hnil]
    exact List.forall_mem_nil _

theorem mem_violations_iff (s : Settings) (v : Violation) : v ∈ s.violations ↔ s.Violates v := by
  cases v with
  | blankMessage r => simp [violations, Violates, trim_eq_empty_iff, Refusal.mem_all]
  | fractionDigitsOutOfRange found =>
    have hmax : maxFractionDigits = 10 := rfl
    simp only [violations, Violates, List.mem_append, List.mem_map, reduceCtorEq, and_false,
      exists_false, false_or]
    by_cases hn : maxFractionDigits < s.fractionDigits.toNat
    · rw [if_pos hn, List.mem_singleton, Violation.fractionDigitsOutOfRange.injEq]
      omega
    · rw [if_neg hn, iff_false_left List.not_mem_nil]
      omega

theorem violations_sublist (s : Settings) : s.violations.Sublist s.conceivable := by
  refine List.Sublist.append (List.filter_sublist.map _) ?_
  split
  · exact .refl _
  · exact List.nil_sublist _

theorem valid_iff (s : Settings) : s.Valid ↔ s.violations = [] := by
  simp only [List.eq_nil_iff_forall_not_mem, mem_violations_iff]
  constructor
  · rintro ⟨hworded, hshort⟩ v
    cases v with
    | blankMessage r => exact hworded r
    | fractionDigitsOutOfRange found =>
      rintro ⟨rfl, hlong⟩
      omega
  · intro h
    refine ⟨fun r => h (.blankMessage r), ?_⟩
    have hlong := h (.fractionDigitsOutOfRange s.fractionDigits.toNat)
    simpa [Violates] using hlong

theorem validate_of_valid (h : s.Valid) : s.validate = .ok s := if_pos ((valid_iff s).1 h)

theorem validate_of_not_valid (h : ¬ s.Valid) : s.validate = .error (.violated s.violations) :=
  if_neg (mt (valid_iff s).2 h)

theorem valid_of_ofDocument (h : ofDocument text = .ok s) : s.Valid := by
  unfold ofDocument at h
  split at h
  · cases h
  · rename_i read hread
    by_cases hv : read.Valid
    · rw [validate_of_valid hv] at h
      exact Except.ok.inj h ▸ hv
    · rw [validate_of_not_valid hv] at h
      cases h

theorem Valid.exists_not_isWhiteSpace (h : s.Valid) (r : Refusal) :
    ∃ c ∈ (s.messages.text r).toList, isWhiteSpace c = false := by
  have hblank : isBlank (s.messages.text r) = false :=
    Bool.eq_false_iff.2 fun hb => h.worded r (trim_eq_empty_iff.2 hb)
  obtain ⟨c, hc, hn⟩ := List.all_eq_false.1 hblank
  exact ⟨c, hc, Bool.eq_false_iff.2 hn⟩

theorem ofDocument_of_ofJson? {s : Settings} (ht : Json.parse? text = some j)
    (h : ofJson? j = some s) : ofDocument text = s.validate := by
  have hload : (load? text : Option Settings) = some s := (load?_of_parse? ht).trans h
  rw [ofDocument, hload]

/-- A document that gives some of the settings, in any order and among unknown members, comes to
those settings and the standard ones for the rest. They are accepted if they are valid. If not, the
violations that are reported are those that there are, each of them once and in the order of the
fields. A document that valid settings are saved in gives them back. -/
theorem ofDocument_of_carriedBy (hj : s.CarriedBy carried digits j)
    (ht : Json.parse? text = some j) :
    let m := s.partly carried digits
    (ofDocument text = .ok m ↔ m.Valid) ∧
      (¬ m.Valid → ofDocument text = .error (.violated m.violations)) ∧
      m.violations.Sublist m.conceivable ∧ (∀ v, v ∈ m.violations ↔ m.Violates v) ∧
      (s.Valid → ofDocument (save s) = .ok s) := by
  intro m
  have hvalidate : ofDocument text = m.validate :=
    ofDocument_of_ofJson? ht (ofJson?_of_carriedBy hj)
  have hsaved : ofDocument (save s) = s.validate :=
    ofDocument_of_ofJson? (Json.parse?_render (toJson s)) (ofJson?_of_carriedBy s.carriedBy_toJson)
  refine ⟨⟨valid_of_ofDocument, fun h => ?_⟩, fun h => ?_, m.violations_sublist,
    m.mem_violations_iff, fun h => ?_⟩
  · rw [hvalidate, validate_of_valid h]
  · rw [hvalidate, validate_of_not_valid h]
  · rw [hsaved, validate_of_valid h]

theorem ofDocument_of_carriedBy_blank :
    let s : Settings := { messages := { operatorNotAllowed := "\u2003 " }, fractionDigits := 12 }
    let carried : Refusal → Bool := fun r => r = .operatorNotAllowed
    let messages : Json := .object
      [(some "hint", .decimal), (some "operator_not_allowed", .named "\u2003 ")]
    let j : Json := .object
      [(some "theme", .array [.null, .string none]), (some "fraction_digits", .natural 12),
        (some "messages", messages), (some "theme", .decimal)]
    s.CarriedBy carried true j ∧ ¬ (s.partly carried true).Valid ∧
      ofDocument j.render =
        .error (.violated [.blankMessage .operatorNotAllowed, .fractionDigitsOutOfRange 12]) := by
  intro s carried messages j
  have hmessages : s.messages.CarriedBy carried messages := by
    refine ⟨by decide, fun f hf => ?_⟩
    obtain ⟨r, -, rfl⟩ := List.mem_map.1 hf
    cases r <;> rfl
  have hcarried : s.CarriedBy carried true j := by
    refine ⟨some messages, hmessages, by decide, fun f hf => ?_⟩
    simp only [List.mem_cons, List.not_mem_nil, or_false] at hf
    rcases hf with rfl | rfl <;> rfl
  have hinvalid : ¬ (s.partly carried true).Valid := fun h => absurd h.short (by decide)
  have hviolations : (s.partly carried true).violations =
      [.blankMessage .operatorNotAllowed, .fractionDigitsOutOfRange 12] := by decide
  obtain ⟨-, hrefused, -⟩ := ofDocument_of_carriedBy hcarried (Json.parse?_render j)
  exact ⟨hcarried, hinvalid, hviolations ▸ hrefused hinvalid⟩

end Settings
end PocketCalculator
