import PocketCalculator.Proofs.Entry.Sequence

/-! Keys on restored entries. The facts that an entry keeps are brought up to date one by one, and
yet they stay those that `Entry.restore` derives afresh from what was typed. -/

namespace PocketCalculator.Entry
variable {ds : String} {s : Sign} {ts : List Token} {t : Token}

theorem edit_digit_restore {c : Char} (hc : c ≠ '.') :
    (restore ds s ts).edit (.digit c) = restore (ds.push c) s ts := by
  have hp : decide ('.' ∈ (ds.push c).toList) = decide ('.' ∈ ds.toList) := by simp [hc.symm]
  rw [restore, restore, hp]
  rfl

theorem edit_decimalPoint_restore :
    (restore ds s ts).edit .decimalPoint = restore (ds.push '.') s ts := by
  have hp : decide ('.' ∈ (ds.push '.').toList) = true := by simp
  rw [restore, restore, hp]
  rfl

theorem edit_signFlip_restore : (restore ds s ts).edit .signFlip = restore ds s.flip ts := rfl

theorem openBrackets_append (e : Entry) (he : e.openBrackets = openBracketCount e.tokens)
    (t : Token) : (e.append t).openBrackets = openBracketCount (e.append t).tokens := by
  have hc : openBracketCount (e.append t).tokens = _ := openBracketCount_concat e.tokens t
  rw [hc, ← he]
  cases t <;> rfl

theorem openBracketCount_stream (e : Entry) :
    openBracketCount e.stream = openBracketCount e.tokens := by
  by_cases h : e.digits = ""
  · rw [stream_of_eq h]
  · rw [stream_of_ne h, openBracketCount_concat]

theorem refresh_eq_restore {e : Entry} (hp : e.hasPoint = decide ('.' ∈ e.digits.toList))
    (hb : e.openBrackets = openBracketCount e.tokens) :
    e.refresh = restore e.digits e.sign e.tokens := by
  rw [restore, ← hp, ← hb]
  rfl

theorem restore_eq {e : Entry} (hp : e.hasPoint = decide ('.' ∈ e.digits.toList))
    (hb : e.openBrackets = openBracketCount e.tokens) (ha : e.allowed = e.derivedAllowed) :
    restore e.digits e.sign e.tokens = e := by
  rw [← refresh_eq_restore hp hb, refresh, ← ha]

theorem refresh_append_finishOperand_restore :
    ((restore ds s ts).finishOperand.append t).refresh =
      restore "" (if ds = "" then s else .positive) ((restore ds s ts).stream ++ [t]) := by
  have hd : ((restore ds s ts).finishOperand.append t).digits = "" :=
    digits_append_finishOperand _ t
  have hs : ((restore ds s ts).finishOperand.append t).sign = if ds = "" then s else .positive :=
    sign_finishOperand _
  have ht : ((restore ds s ts).finishOperand.append t).tokens = (restore ds s ts).stream ++ [t] :=
    tokens_append_finishOperand _ t
  rw [← hs, ← ht, ← hd]
  apply refresh_eq_restore
  · rw [hd]
    refine (hasPoint_finishOperand (restore ds s ts)).trans (ite_eq_right_iff.2 fun he => ?_)
    change ds = "" at he
    subst he
    rfl
  · apply openBrackets_append
    rw [openBrackets_finishOperand, tokens_finishOperand, openBracketCount_stream]
    rfl

end PocketCalculator.Entry
