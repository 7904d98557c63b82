import PocketCalculator.Entry.Reached
import PocketCalculator.Proofs.Document.Record
import PocketCalculator.Proofs.Entry.Restoration

/-! Entries brought about by keys and documents together. Whatever was loaded, the facts that an
entry keeps are those that `Entry.restore` derives from what is typed, and so a document has no say
in them: its members `keptNames` only repeat them. -/

namespace PocketCalculator.Entry
open Stored
variable {ds : String} {s : Sign} {ts : List Token} {e : Entry}

def keptNames : List String := ["has_decimal_point", "open_brackets", "allowed_next"]

theorem ofJson?_without (j : Json) :
    (ofJson? (j.without keptNames) : Option Entry) = ofJson? j := by
  have hnames : ∀ name ∈ ["current_number", "current_sign", "tokens"], name ∉ keptNames := by decide
  simp only [ofJson?, Json.fields?_without hnames j]

theorem ofJson?_toJson_eq_restore (e : Entry) :
    (ofJson? (toJson e) : Option Entry) = some (restore e.digits e.sign e.tokens) := by
  show (do
    let digits ← ofJson? (toJson e.digits)
    let sign ← ofJson? (toJson e.sign)
    let tokens ← ofJson? (toJson e.tokens)
    some (restore digits sign tokens)) = _
  rw [LawfulStored.ofJson?_toJson, LawfulStored.ofJson?_toJson, LawfulStored.ofJson?_toJson]
  rfl

theorem exists_restore_of_ofJson? {j : Json} (h : ofJson? j = some e) :
    ∃ ds s ts, e = restore ds s ts := by
  simp only [ofJson?] at h
  split at h
  · simp only [Option.bind_eq_bind, Option.bind_eq_some_iff] at h
    obtain ⟨ds, -, s, -, ts, -, he⟩ := h
    exact ⟨ds, s, ts, (Option.some.inj he).symm⟩
  · cases h

theorem exists_edit_restore {k : EditKey} (hk : ∀ c, k = .digit c → c ≠ '.') :
    ∃ ds' s' ts', (restore ds s ts).edit k = restore ds' s' ts' := by
  cases k with
  | digit c => exact ⟨_, _, _, edit_digit_restore (hk c rfl)⟩
  | signFlip => exact ⟨_, _, _, edit_signFlip_restore⟩
  | decimalPoint => exact ⟨_, _, _, edit_decimalPoint_restore⟩
  | openBracket => exact ⟨_, _, _, refresh_append_finishOperand_restore⟩
  | closeBracket => exact ⟨_, _, _, refresh_append_finishOperand_restore⟩
  | operator op => exact ⟨_, _, _, refresh_append_finishOperand_restore⟩

theorem Held.exists_restore (h : e.Held) : ∃ ds s ts, e = restore ds s ts := by
  -- Nothing is assumed about what was loaded: a key takes every restored entry to a restored one.
  induction h with
  | empty => exact ⟨_, _, _, rfl⟩
  | load h =>
    obtain ⟨j, -, hj⟩ := Option.bind_eq_some_iff.1 h
    exact exists_restore_of_ofJson? hj
  | press _ hk ih =>
    obtain ⟨ds, s, ts, rfl⟩ := ih
    obtain ⟨-, hdigit, rfl⟩ := press_eq_ok_iff.1 hk
    refine exists_edit_restore fun c hc => ?_
    rintro rfl
    exact absurd (hdigit '.' hc) (by decide)

theorem Held.restore_eq (h : e.Held) : restore e.digits e.sign e.tokens = e := by
  obtain ⟨ds, s, ts, rfl⟩ := h.exists_restore
  rfl

theorem Held.openBrackets_eq (h : e.Held) : e.openBrackets = openBracketCount e.tokens := by
  rw [← h.restore_eq]
  rfl

theorem Held.allowed_eq (h : e.Held) : e.allowed = e.derivedAllowed := by
  rw [← h.restore_eq]
  rfl

theorem held_restore (ds : String) (s : Sign) (ts : List Token) : (restore ds s ts).Held := by
  have h := load?_of_parse? (α := Entry) (Json.parse?_render (toJson (restore ds s ts)))
  rw [ofJson?_toJson_eq_restore] at h
  exact .load h

/-- The entries that keys and documents bring about in any order are those in which everything that
is kept agrees with what is typed. -/
theorem held_iff_kept (e : Entry) :
    e.Held ↔ (e.hasPoint = true ↔ '.' ∈ e.digits.toList) ∧
      e.openBrackets = openBracketCount e.tokens ∧ e.allowed = e.derivedAllowed := by
  constructor
  · intro h
    obtain ⟨ds, s, ts, rfl⟩ := h.exists_restore
    exact ⟨decide_eq_true_iff, rfl, rfl⟩
  · rintro ⟨hp, hb, ha⟩
    have hp : e.hasPoint = decide ('.' ∈ e.digits.toList) := by
      rw [Bool.eq_iff_iff, hp, decide_eq_true_iff]
    exact restore_eq hp hb ha ▸ held_restore e.digits e.sign e.tokens

/-- An entry is loaded back as it was saved, and from every other document that has the same
members apart from those that repeat what is kept: these may be left out, occur many times and hold
any values, and the document may be spaced and spelled as it likes. -/
theorem load?_of_held (h : e.Held) :
    load? (save e) = some e ∧
      ∀ j : Json, j.without keptNames = (toJson e).without keptNames →
        load? j.render = some e ∧ ∀ text, Json.parse? text = some j → load? text = some e := by
  have forged (j : Json) (hj : j.without keptNames = (toJson e).without keptNames) (text : String)
      (ht : Json.parse? text = some j) : load? text = some e := by
    rw [load?_of_parse? ht, ← ofJson?_without, hj, ofJson?_without, ofJson?_toJson_eq_restore,
      h.restore_eq]
  exact ⟨forged _ rfl _ (Json.parse?_render _),
    fun j hj => ⟨forged j hj _ (Json.parse?_render j), forged j hj⟩⟩

theorem load?_of_held_forged :
    (restore "1..2" .negative [.closeBracket, .operand ⟨"\"\n", .positive⟩, .openBracket]).Held ∧
      load? (Json.object
          [(some "allowed_next", .array [.null, .string none]), (some "current_number", .named "1..2"),
            (some "has_decimal_point", .decimal), (some "current_sign", .named "Negative"),
            (some "has_decimal_point", .object [(none, .bool true)]),
            (some "tokens", .array [.named "CloseBracket",
              .carrying "Operand" (.record [("digits", .named "\"\n"), ("sign", .named "Positive")]),
              .named "OpenBracket"])]).render =
        some (restore "1..2" .negative
          [.closeBracket, .operand ⟨"\"\n", .positive⟩, .openBracket]) := by
  have held := held_restore "1..2" .negative
    [.closeBracket, .operand ⟨"\"\n", .positive⟩, .openBracket]
  refine ⟨held, ((load?_of_held held).2 _ ?_).1⟩
  rfl

end PocketCalculator.Entry
