import PocketCalculator.Proofs.Entry.Arithmetic
import PocketCalculator.Proofs.Entry.Causes

/-! Open brackets can be closed, all of them and no more. Whatever stands in a group, be it nothing
at all or an operator without its second operand, as many closing brackets are accepted as are open,
one after the other, and the next one is refused. Only after a point a digit has to come first. -/

namespace PocketCalculator.Entry
variable {e : Entry} {c : Char} {m : Nat}

theorem closeBracket_press (ha : e.allowed = e.derivedAllowed) (hopen : 0 < e.openBrackets)
    (hlast : e.digits.toList.getLast? ≠ some '.') :
    ∃ e', e.press .closeBracket = .ok e' ∧ e'.openBrackets + 1 = e.openBrackets ∧
      e'.stream = e.stream ++ [.closeBracket] ∧ e'.digits = "" ∧
        e'.allowed = e'.derivedAllowed := by
  have haccept : e.press .closeBracket = .ok (e.edit .closeBracket) :=
    press_eq_ok_iff.2
      ⟨(allows_iff ha .closeBracket).2 ⟨hopen, hlast⟩, (fun c hc => by cases hc), rfl⟩
  have hcount : (e.edit .closeBracket).openBrackets = e.openBrackets - 1 :=
    congrArg (· - 1) e.openBrackets_finishOperand
  exact ⟨_, haccept, by omega, stream_append_finishOperand e .closeBracket,
    digits_append_finishOperand e .closeBracket, rfl⟩

theorem exists_keys_closeBracket (ha : e.allowed = e.derivedAllowed) (hm : m ≤ e.openBrackets)
    (hlast : e.digits.toList.getLast? ≠ some '.') :
    ∃ e', (List.replicate m EditKey.closeBracket).foldlM Entry.press e = .ok e' ∧
      e'.openBrackets + m = e.openBrackets ∧
      e'.stream = e.stream ++ List.replicate m .closeBracket ∧
      e'.digits.toList.getLast? ≠ some '.' := by
  -- The first bracket finishes the number, so that none of the later ones meets a point.
  induction m generalizing e with
  | zero => exact ⟨e, rfl, rfl, (List.append_nil _).symm, hlast⟩
  | succ m ih =>
    obtain ⟨next, hpress, hopen, hstream, hdigits, hallowed⟩ :=
      closeBracket_press ha (by omega) hlast
    obtain ⟨e', hkeys, hopen', hstream', hlast'⟩ := ih hallowed (by omega) (by simp [hdigits])
    refine ⟨e', keys_cons_eq_ok_iff.2 ⟨next, hpress, hkeys⟩, by omega, ?_, hlast'⟩
    rw [hstream', hstream, List.append_assoc, List.singleton_append, ← List.replicate_succ]

def completion (e : Entry) (c : Char) : List EditKey :=
  if e.digits.toList.getLast? = some '.' then [.digit c] else []

theorem Conforms.exists_keys_completion (h : e.Conforms) (hc : c.isDigit = true) :
    ∃ e', (e.completion c).foldlM Entry.press e = .ok e' ∧ e'.openBrackets = e.openBrackets ∧
      e'.digits.toList.getLast? ≠ some '.' := by
  by_cases hlast : e.digits.toList.getLast? = some '.'
  · have hnumber : e.Admits .number := .inl fun hd => by simp [hd] at hlast
    have haccept : e.press (.digit c) = .ok (e.edit (.digit c)) :=
      press_eq_ok_iff.2
        ⟨(allows_iff h.allowed .number).2 hnumber, (fun _ hd => EditKey.digit.inj hd ▸ hc), rfl⟩
    have hpoint : c ≠ '.' := by
      rintro rfl
      exact absurd hc (by decide)
    refine ⟨e.edit (.digit c), ?_, rfl, ?_⟩
    · rw [completion, if_pos hlast]
      exact keys_cons_eq_ok_iff.2 ⟨_, haccept, rfl⟩
    · simpa [edit, refresh] using hpoint
  · refine ⟨e, ?_, rfl, hlast⟩
    rw [completion, if_neg hlast]
    rfl

/-- Of an entry that keys brought about as many brackets can be closed as are open, one after the
other, a digit going before them where a number ends in a point. They are added and nothing else is
changed; the next one is refused just when all are closed, and just then an evaluation no longer
asks for one. -/
theorem exists_closed (h : e.Reached) (hc : c.isDigit = true) (hm : m ≤ e.openBrackets) :
    ∃ whole closed, (e.completion c).foldlM Entry.press e = .ok whole ∧
      whole.openBrackets = e.openBrackets ∧
      (List.replicate m EditKey.closeBracket).foldlM Entry.press whole = .ok closed ∧
      closed.stream = whole.stream ++ List.replicate m .closeBracket ∧
      closed.openBrackets + m = e.openBrackets ∧
      (closed.evaluate = .error .unbalancedBrackets ↔ m < e.openBrackets) ∧
      (closed.press .closeBracket = .error .closeBracketNotAllowed ↔ m = e.openBrackets) := by
  obtain ⟨whole, hwhole, hopen, hlast⟩ := h.conforms.exists_keys_completion hc
  have hreached : whole.Reached := h.keys _ hwhole
  obtain ⟨closed, hclosed, hopen', hstream, hlast'⟩ :=
    exists_keys_closeBracket hreached.conforms.allowed (hopen.symm ▸ hm) hlast
  have hconforms : closed.Conforms := (hreached.keys _ hclosed).conforms
  rw [hopen] at hopen'
  refine ⟨whole, closed, hwhole, hopen, hclosed, hstream, hopen', ?_, ?_⟩
  · rw [evaluate_eq_unbalancedBrackets_iff]
    omega
  · have hrefused : closed.press .closeBracket = .error .closeBracketNotAllowed ↔
        ¬ closed.Admits .closeBracket :=
      (hconforms.press_eq_refusal_iff (a := .closeBracket) (by decide)).trans (and_iff_right rfl)
    have hadmits : closed.Admits .closeBracket ↔ 0 < closed.openBrackets := and_iff_left hlast'
    rw [hrefused, hadmits]
    omega

theorem exists_closed_trailing_point :
    let e := restore "5." .positive [.openBracket, .openBracket]
    e.Reached ∧ e.openBrackets = 2 ∧ e.completion '0' = [.digit '0'] ∧
      ∃ whole closed, (e.completion '0').foldlM Entry.press e = .ok whole ∧
        [EditKey.closeBracket, .closeBracket].foldlM Entry.press whole = .ok closed ∧
        closed.openBrackets = 0 ∧ closed.evaluate ≠ .error .unbalancedBrackets ∧
        closed.press .closeBracket = .error .closeBracketNotAllowed := by
  intro e
  have reached : e.Reached :=
    Reached.empty.keys [.openBracket, .openBracket, .digit '5', .decimalPoint] rfl
  have point : e.completion '0' = [.digit '0'] := if_pos (by decide)
  obtain ⟨whole, closed, hwhole, -, hclosed, -, hopen, hvalue, hnext⟩ :=
    exists_closed reached (c := '0') (m := 2) (by decide) (by decide)
  exact ⟨reached, rfl, point, whole, closed, hwhole, hclosed, Nat.add_right_cancel hopen,
    fun h => absurd (hvalue.1 h) (by decide), hnext.2 rfl⟩

end PocketCalculator.Entry
