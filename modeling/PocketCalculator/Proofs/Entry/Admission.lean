import PocketCalculator.Proofs.Entry.Sequence

/-! The table of admission, class by class, in terms of what is typed: the number, its point, the
open brackets and the last token. -/

namespace PocketCalculator

theorem Pending.ofText_eq_none_iff {s : String} : ofText s = .none ↔ s = "" := by
  unfold ofText
  split
  · simp [*]
  · split <;> simp [*]

theorem Pending.ofText_eq_trailingPoint_iff {s : String} :
    ofText s = .trailingPoint ↔ s.toList.getLast? = some '.' := by
  unfold ofText
  split
  · simp [*]
  · split <;> simp [*]

namespace Entry

def Admits (e : Entry) : KeyClass → Prop
  | .number => e.digits ≠ "" ∨ lastKind e.tokens ≠ some .closeBracket
  | .sign => e.digits ≠ ""
  | .decimalPoint => e.digits ≠ "" ∧ e.digits.toList.getLast? ≠ some '.' ∧ e.hasPoint = false
  | .openBracket => e.digits = "" ∧ lastKind e.tokens ≠ some .closeBracket
  | .closeBracket => 0 < e.openBrackets ∧ e.digits.toList.getLast? ≠ some '.'
  | .operator =>
    if e.digits = "" then lastKind e.tokens = some .closeBracket
    else e.digits.toList.getLast? ≠ some '.'

theorem contains_derivedAllowed_iff (e : Entry) (c : KeyClass) :
    e.derivedAllowed.contains c = true ↔ e.Admits c := by
  have hn : Pending.ofText e.digits = .none ↔ e.digits = "" := Pending.ofText_eq_none_iff
  have ht : Pending.ofText e.digits = .trailingPoint ↔ e.digits.toList.getLast? = some '.' :=
    Pending.ofText_eq_trailingPoint_iff
  rw [derivedAllowed, ← lastKind]
  cases hp : Pending.ofText e.digits with
  | none =>
    have hd : e.digits = "" := hn.1 hp
    cases c <;> simp [admitted, Admits, hd]
  | digits =>
    have hd : e.digits ≠ "" := fun h => by simp [hn.2 h] at hp
    have hl : e.digits.toList.getLast? ≠ some '.' := fun h => by simp [ht.2 h] at hp
    cases c <;> simp [admitted, Admits, KeySet.ofList, hd, hl]
  | trailingPoint =>
    have hd : e.digits ≠ "" := fun h => by simp [hn.2 h] at hp
    have hl : e.digits.toList.getLast? = some '.' := ht.1 hp
    cases c <;> simp [admitted, Admits, KeySet.ofList, hd, hl]

theorem allows_iff {e : Entry} (h : e.allowed = e.derivedAllowed) (c : KeyClass) :
    e.allows c = true ↔ e.Admits c := by
  rw [allows, h, contains_derivedAllowed_iff]

theorem press_eq_error {e : Entry} {k : EditKey}
    (h : ¬ (e.allows k.requirement = true ∧ ∀ c, k = .digit c → c.isDigit = true)) :
    e.press k = .error k.refusal := by
  cases hp : e.press k with
  | ok e' => exact absurd ⟨(press_eq_ok_iff.1 hp).1, (press_eq_ok_iff.1 hp).2.1⟩ h
  | error r =>
    unfold press at hp
    split at hp
    · split at hp
      · split at hp
        · cases hp
        · exact hp.symm
      · cases hp
    · exact hp.symm

end Entry
end PocketCalculator
