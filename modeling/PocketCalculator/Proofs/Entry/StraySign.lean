import PocketCalculator.Proofs.Entry.Held
import PocketCalculator.Proofs.Entry.Conforms

/-! A negative sign that no number goes with. It is displayed at the end of the equation although
nothing is being typed there, while what is evaluated is without it. No key brings it about, but a
document may hold it, and then it stays until there is a digit. -/

namespace PocketCalculator.Entry
variable {o e e' : Entry} {k : EditKey} {ks : List EditKey}

def StraySign (e : Entry) : Prop := e.digits = "" ∧ e.sign = .negative

instance : DecidablePred StraySign := fun e =>
  inferInstanceAs (Decidable (e.digits = "" ∧ e.sign = .negative))

theorem typed_of_digits_eq (hd : e.digits = "") : e.typed = e.tokens.map Token.plain := by
  rw [typed_eq_map_stream, stream_of_eq hd]

theorem equation_of_digits_eq (hd : e.digits = "") :
    e.equation = String.join (e.tokens.map Token.shown) ++ if e.StraySign then "(-)" else "" := by
  rw [equation, Operand.shown, hd]
  cases hs : e.sign with
  | positive => simp [StraySign, hs]
  | negative =>
    rw [if_pos ⟨hd, hs⟩]
    rfl

theorem straySign_append_finishOperand_iff (e : Entry) (t : Token) :
    (e.finishOperand.append t).refresh.StraySign ↔ e.StraySign := by
  have hdigits : (e.finishOperand.append t).refresh.digits = "" := digits_append_finishOperand e t
  have hsign : (e.finishOperand.append t).refresh.sign =
      if e.digits = "" then e.sign else .positive := sign_finishOperand e
  rw [StraySign, StraySign, and_iff_right hdigits, hsign]
  split
  · simp [*]
  · simp [*]

theorem straySign_press_iff (ha : e.allowed = e.derivedAllowed) (hk : e.press k = .ok e') :
    e'.StraySign ↔ e.StraySign ∧ ∀ c, k ≠ .digit c := by
  -- A point and a change of sign need digits before them, and the last three keys all append.
  obtain ⟨hallow, -, rfl⟩ := press_eq_ok_iff.1 hk
  have hadmits := (allows_iff ha _).1 hallow
  have happend (t : Token) (hdigit : ∀ c, k ≠ .digit c) :
      (e.finishOperand.append t).refresh.StraySign ↔ e.StraySign ∧ ∀ c, k ≠ .digit c := by
    rw [straySign_append_finishOperand_iff, and_iff_left hdigit]
  cases k with
  | digit c => exact iff_of_false (fun h => String.push_ne_empty h.1) fun h => h.2 c rfl
  | signFlip => exact iff_of_false (fun h => hadmits h.1) fun h => hadmits h.1.1
  | decimalPoint =>
    exact iff_of_false (fun h => String.push_ne_empty h.1) fun h => hadmits.1 h.1.1
  | openBracket => exact happend _ fun c hc => by cases hc
  | closeBracket => exact happend _ fun c hc => by cases hc
  | operator op => exact happend _ fun c hc => by cases hc

theorem Held.straySign_keys_iff (h : o.Held) (hk : ks.foldlM Entry.press o = .ok e) :
    e.StraySign ↔ o.StraySign ∧ ∀ c, .digit c ∉ ks := by
  induction ks generalizing o with
  | nil =>
    cases hk
    exact (and_iff_left fun c => List.not_mem_nil).symm
  | cons k ks ih =>
    obtain ⟨next, hnext, hk⟩ := keys_cons_eq_ok_iff.1 hk
    rw [ih (h.press hnext) hk, straySign_press_iff h.allowed_eq hnext, and_assoc, ← forall_and]
    simp only [List.mem_cons, not_or, ne_comm]

/-- Where no number is being typed, what is evaluated is the tokens and nothing else, and what is
displayed is the tokens but for a stray sign. There is one just if the entry that the keys began
with, which may be any that was loaded, had one, and no digit has come since. -/
theorem equation_of_keys (h : o.Held) (hk : ks.foldlM Entry.press o = .ok e) (hd : e.digits = "") :
    e.typed = e.tokens.map Token.plain ∧
      e.equation =
        String.join (e.tokens.map Token.shown) ++ (if e.StraySign then "(-)" else "") ∧
      (e.StraySign ↔ o.StraySign ∧ ∀ c, .digit c ∉ ks) :=
  ⟨typed_of_digits_eq hd, equation_of_digits_eq hd, h.straySign_keys_iff hk⟩

theorem equation_of_keys_group :
    let o := restore "" .negative []
    let e := restore "" .negative [.openBracket, .closeBracket]
    o.Held ∧ [EditKey.openBracket, .closeBracket].foldlM Entry.press o = .ok e ∧ e.digits = "" ∧
      e.typed = ["(", ")"] ∧ e.equation = "()(-)" ∧ e.StraySign := by
  intro o e
  have held : o.Held := held_restore "" .negative []
  have keys : [EditKey.openBracket, .closeBracket].foldlM Entry.press o = .ok e := by
    unfold o e
    rfl
  obtain ⟨htyped, hequation, hstray⟩ := equation_of_keys held keys rfl
  exact ⟨held, keys, rfl, htyped, hequation, hstray.2 ⟨⟨rfl, rfl⟩, by simp⟩⟩

theorem equation_of_stray_sign :
    let document : Json := .object [(some "current_sign", .named "Negative")]
    let e := restore "" .negative []
    Stored.load? document.render = some e ∧ e.Held ∧ e.digits = "" ∧ e.typed = [] ∧
      e.equation = "(-)" ∧ e.equation ≠ String.join (e.tokens.map Token.shown) := by
  intro document e
  have load : Stored.load? document.render = some e :=
    Stored.load?_of_parse? (Json.parse?_render document)
  exact ⟨load, .load load, rfl, rfl, rfl, by decide⟩

end PocketCalculator.Entry
