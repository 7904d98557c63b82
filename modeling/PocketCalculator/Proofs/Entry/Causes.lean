import PocketCalculator.Proofs.Entry.Conforms

/-! Why keys are refused. A refusal tells the key, and for an entry that keys brought about it tells
the cause as well: there is no number whose sign could change, no bracket that could be closed, no
operand that an operator could follow. Only that of a point has two causes. -/

namespace PocketCalculator.Entry
variable {e : Entry} {k a : EditKey} {r : Refusal}

theorem press_eq_error_iff :
    e.press k = .error r ↔
      r = k.refusal ∧ ¬ (e.allows k.requirement = true ∧ ∀ c, k = .digit c → c.isDigit = true) := by
  constructor
  · intro h
    have hn : ¬ (e.allows k.requirement = true ∧ ∀ c, k = .digit c → c.isDigit = true) := by
      rintro ⟨ha, hc⟩
      rw [press_eq_ok_iff.2 ⟨ha, hc, rfl⟩] at h
      cases h
    rw [press_eq_error hn] at h
    exact ⟨(Except.error.inj h).symm, hn⟩
  · rintro ⟨rfl, hn⟩
    exact press_eq_error hn

theorem refusal_eq_iff : k.refusal = a.refusal ↔ k.requirement = a.requirement := by
  cases k <;> cases a <;> simp [EditKey.refusal, EditKey.requirement]

theorem Conforms.press_eq_refusal_iff (h : e.Conforms) (hc : a.requirement ≠ .number) :
    e.press k = .error a.refusal ↔
      k.requirement = a.requirement ∧ ¬ e.Admits a.requirement := by
  rw [press_eq_error_iff, eq_comm, refusal_eq_iff, allows_iff h.allowed]
  refine and_congr_right fun hk => ?_
  rw [hk, and_iff_left]
  rintro c rfl
  exact absurd hk.symm hc

theorem requirement_eq_iff
    (hc : a ∈ [.signFlip, .decimalPoint, .openBracket, .closeBracket]) :
    k.requirement = a.requirement ↔ k = a := by
  simp only [List.mem_cons, List.not_mem_nil, or_false] at hc
  rcases hc with rfl | rfl | rfl | rfl <;> cases k <;> simp [EditKey.requirement]

theorem requirement_eq_operator_iff : k.requirement = .operator ↔ ∃ op, k = .operator op := by
  cases k <;> simp [EditKey.requirement]

theorem Conforms.not_admits_decimalPoint_iff (h : e.Conforms) :
    ¬ e.Admits .decimalPoint ↔ e.digits = "" ∨ '.' ∈ e.digits.toList := by
  have hlast : e.digits.toList.getLast? = some '.' → '.' ∈ e.digits.toList := List.mem_of_getLast?
  rw [Admits, h.point, decide_eq_false_iff_not]
  tauto

theorem Conforms.not_admits_closeBracket_iff (h : e.Conforms) :
    ¬ e.Admits .closeBracket ↔ e.tokens.count .openBracket = e.tokens.count .closeBracket ∨
      e.digits.toList.getLast? = some '.' := by
  have hbrackets := h.brackets
  have hzero : ¬ 0 < e.openBrackets ↔
      e.tokens.count .openBracket = e.tokens.count .closeBracket := by omega
  rw [Admits, not_and_or, hzero, not_ne_iff]

theorem not_admits_operator_iff (e : Entry) :
    ¬ e.Admits .operator ↔ e.digits = "" ∧ lastKind e.tokens ≠ some .closeBracket ∨
      e.digits.toList.getLast? = some '.' := by
  by_cases hd : e.digits = ""
  · simp [Admits, hd]
  · simp [Admits, hd]

/-- What each refusal says of the entry. A point is refused as placed already also where no number
is being typed that it could stand in; all others mean what they say. -/
theorem cause_of_refusal (h : e.Reached) (k : EditKey) :
    (e.press k = .error .signChangeNotAllowed ↔ k = .signFlip ∧ e.digits = "") ∧
      (e.press k = .error .decimalPointAlreadyPlaced ↔
        k = .decimalPoint ∧ (e.digits = "" ∨ '.' ∈ e.digits.toList)) ∧
      (e.press k = .error .closeBracketNotAllowed ↔
        k = .closeBracket ∧ (e.tokens.count .openBracket = e.tokens.count .closeBracket ∨
          e.digits.toList.getLast? = some '.')) ∧
      (e.press k = .error .operatorNotAllowed ↔
        (∃ op, k = .operator op) ∧ (e.digits = "" ∧ lastKind e.tokens ≠ some .closeBracket ∨
          e.digits.toList.getLast? = some '.')) := by
  have hc := h.conforms
  refine ⟨?_, ?_, ?_, ?_⟩
  · rw [← requirement_eq_iff (a := .signFlip) (by decide), ← not_ne_iff (a := e.digits)]
    exact hc.press_eq_refusal_iff (a := .signFlip) (by decide)
  · rw [← requirement_eq_iff (a := .decimalPoint) (by decide),
      ← hc.not_admits_decimalPoint_iff]
    exact hc.press_eq_refusal_iff (a := .decimalPoint) (by decide)
  · rw [← requirement_eq_iff (a := .closeBracket) (by decide),
      ← hc.not_admits_closeBracket_iff]
    exact hc.press_eq_refusal_iff (a := .closeBracket) (by decide)
  · rw [← requirement_eq_operator_iff, ← not_admits_operator_iff]
    exact hc.press_eq_refusal_iff (a := .operator .add) (by decide)

theorem cause_of_refusal_trailing_point :
    let e := restore "5." .positive [.openBracket]
    e.Reached ∧ '.' ∈ e.digits.toList ∧ e.digits.toList.getLast? = some '.' ∧
      e.press .decimalPoint = .error .decimalPointAlreadyPlaced ∧
      e.press .closeBracket = .error .closeBracketNotAllowed ∧
      e.press (.operator .add) = .error .operatorNotAllowed := by
  intro e
  have reached : e.Reached := Reached.empty.keys [.openBracket, .digit '5', .decimalPoint] rfl
  have point : '.' ∈ e.digits.toList := by decide
  have last : e.digits.toList.getLast? = some '.' := by decide
  exact ⟨reached, point, last,
    (cause_of_refusal reached .decimalPoint).2.1.2 ⟨rfl, .inr point⟩,
    (cause_of_refusal reached .closeBracket).2.2.1.2 ⟨rfl, .inr last⟩,
    (cause_of_refusal reached (.operator .add)).2.2.2.2 ⟨⟨.add, rfl⟩, .inr last⟩⟩

theorem press_decimalPoint_empty :
    Entry.empty.Reached ∧ Entry.empty.press .decimalPoint = .error .decimalPointAlreadyPlaced ∧
      '.' ∉ Entry.empty.digits.toList :=
  ⟨.empty, by decide, by decide⟩

end PocketCalculator.Entry
