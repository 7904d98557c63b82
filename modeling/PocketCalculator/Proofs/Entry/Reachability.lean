import PocketCalculator.Proofs.Entry.Conforms
import PocketCalculator.Proofs.Entry.Restoration

/-! The keys reach every entry that conforms: its tokens are entered one after another, each number
character by character and with its sign last. -/

namespace PocketCalculator.Entry
variable {e : Entry} {ds : String} {s : Sign} {ts : List Token}

theorem conforms_restore (ho : Ordered (restore ds s ts).stream) (hb : Balanced ts)
    (hf : ∀ o, .operand o ∈ ts → Numeral.Finished o.digits.toList)
    (hd : ds ≠ "" → Numeral.Begun ds.toList) (hr : lastKind ts ≠ some .operand)
    (hs : ds = "" → s = .positive) : (restore ds s ts).Conforms where
  ordered := ho
  balanced := hb
  finished := hf
  begun := hd
  resting := hr
  unsigned := hs
  point := rfl
  brackets := hb.openBracketCount_add
  allowed := rfl

theorem Conforms.restore_eq (h : e.Conforms) : restore e.digits e.sign e.tokens = e := by
  have hb : e.openBrackets = openBracketCount e.tokens := by
    have h1 := h.brackets
    have h2 := h.balanced.openBracketCount_add
    omega
  exact Entry.restore_eq h.point hb h.allowed

theorem Conforms.conforms_restore_digits (h : e.Conforms)
    (hds : ds ≠ "" → e.digits ≠ "" ∧ Numeral.Begun ds.toList) (hs : ds = "" → s = .positive) :
    (restore ds s e.tokens).Conforms := by
  refine conforms_restore ?_ h.balanced h.finished (fun hn => (hds hn).2) h.resting hs
  by_cases hn : ds = ""
  · have hst : (restore ds s e.tokens).stream = e.tokens := stream_of_eq hn
    rw [hst]
    exact h.ordered_tokens
  · have hst : (restore ds s e.tokens).stream = e.tokens ++ [.operand ⟨ds, s⟩] := stream_of_ne hn
    rw [hst]
    exact ordered_concat_iff.2 ⟨h.ordered_tokens, h.mayCome_operand (hds hn).1⟩

theorem Reached.edit (hr : e.Reached) {k : EditKey} (hk : (e.edit k).Conforms) :
    (e.edit k).Reached :=
  hr.press (hr.conforms.press_of_conforms hk)

theorem reached_restore_ofList (hr : (restore "" .positive ts).Reached) (cs : List Char)
    (h : (restore (.ofList cs) .positive ts).Conforms) :
    (restore (.ofList cs) .positive ts).Reached := by
  -- From the last character, as that is what the last key typed: every front part of a number is
  -- begun too.
  induction cs using List.reverseRecOn with
  | nil => exact hr
  | append_singleton cs c ih =>
    have hpush : String.ofList (cs ++ [c]) = (String.ofList cs).push c :=
      String.toList_inj.1 (by simp)
    rw [hpush] at h ⊢
    have hne : (String.ofList cs).push c ≠ "" := String.push_ne_empty
    have hb : Numeral.Begun (cs ++ [c]) := by simpa [restore, refresh] using h.begun hne
    have hfront : (restore (.ofList cs) .positive ts).Conforms := by
      refine h.conforms_restore_digits (fun hn => ⟨hne, ?_⟩) fun _ => rfl
      rw [String.toList_ofList]
      rcases Numeral.begun_concat_iff.1 hb with ⟨-, rfl | hb⟩ | ⟨-, hb⟩
      · exact absurd rfl hn
      · exact hb
      · exact .inl hb
    rcases Numeral.begun_concat_iff.1 hb with ⟨hc, -⟩ | ⟨rfl, -⟩
    · have hpoint : c ≠ '.' := by rintro rfl; exact absurd hc (by decide)
      rw [← edit_digit_restore hpoint] at h ⊢
      exact (ih hfront).edit h
    · rw [← edit_decimalPoint_restore] at h ⊢
      exact (ih hfront).edit h

theorem reached_restore (hr : (restore "" .positive ts).Reached) (h : (restore ds s ts).Conforms) :
    (restore ds s ts).Reached := by
  have hpos : ds = "" ∨ (restore ds .positive ts).Conforms := by
    by_cases hd : ds = ""
    · exact .inl hd
    · exact .inr (h.conforms_restore_digits (fun _ => ⟨hd, h.begun hd⟩) fun _ => rfl)
  cases s with
  | positive =>
    rw [← String.ofList_toList (s := ds)] at h ⊢
    exact reached_restore_ofList hr _ h
  | negative =>
    -- The number is typed without its sign, which is flipped at the end.
    rcases hpos with hd | hpos
    · exact absurd (h.unsigned hd) (by simp [restore, refresh])
    · rw [← String.ofList_toList (s := ds)] at hpos
      have hp := reached_restore_ofList hr _ hpos
      rw [String.ofList_toList] at hp
      exact hp.edit (k := .signFlip) h

theorem exists_conforms_stream (ho : Ordered ts) (hb : Balanced ts)
    (hf : ∀ o, .operand o ∈ ts → Numeral.Finished o.digits.toList) :
    ∃ e : Entry, e.Conforms ∧ e.stream = ts ∧ e.tokens.length ≤ ts.length ∧
      (e.digits ≠ "" → e.digits.toList.getLast? ≠ some '.') := by
  -- A number at the end may be one that is still being typed.
  by_cases hlast : lastKind ts = some .operand
  · obtain ⟨front, o, rfl⟩ := exists_operand_of_lastKind hlast
    obtain ⟨hbegun, hpoint⟩ := Numeral.finished_iff.1 (hf o (by simp))
    have hne : o.digits ≠ "" := fun hn => hbegun.ne_nil (by simp [hn])
    have hst : (restore o.digits o.sign front).stream = front ++ [.operand o] := stream_of_ne hne
    have hresting : lastKind front ≠ some .operand :=
      (Token.Kind.mayCome_operand_iff.1 (ordered_concat_iff.1 ho).2).1
    have hconf : (restore o.digits o.sign front).Conforms :=
      conforms_restore (hst ▸ ho) (balanced_concat_iff.1 hb).1
        (fun o ho => hf o (List.mem_append_left _ ho)) (fun _ => hbegun) hresting
        fun hn => absurd hn hne
    exact ⟨_, hconf, hst, by simp [restore, refresh], fun _ => hpoint⟩
  · have hst : (restore "" .positive ts).stream = ts := stream_of_eq rfl
    have hconf : (restore "" .positive ts).Conforms :=
      conforms_restore (by rwa [hst]) hb hf (fun hn => absurd rfl hn) hlast fun _ => rfl
    exact ⟨_, hconf, hst, Nat.le_refl _, fun hn => absurd rfl hn⟩

theorem Conforms.exists_edit_eq (h : e.Conforms) (hd : e.digits = "") {t : Token}
    (ht : e.tokens = ts ++ [t]) :
    ∃ (p : Entry) (k : EditKey), p.Conforms ∧ p.tokens.length ≤ ts.length ∧ p.edit k = e := by
  have hord : Ordered (ts ++ [t]) := ht ▸ h.ordered_tokens
  have hbal : Balanced (ts ++ [t]) := ht ▸ h.balanced
  have hfin : ∀ o, .operand o ∈ ts → Numeral.Finished o.digits.toList :=
    fun o ho => h.finished o (ht ▸ List.mem_append_left _ ho)
  have hkind : t.kind ≠ .operand := fun hk => h.resting (by rw [ht, lastKind_concat, hk])
  obtain ⟨p, hp, hst, hlen, hlast⟩ :=
    exists_conforms_stream (ordered_concat_iff.1 hord).1 (balanced_concat_iff.1 hbal).1 hfin
  have hconf : (p.finishOperand.append t).refresh.Conforms := by
    refine hp.append hkind (hst ▸ (ordered_concat_iff.1 hord).2)
      (fun hc => hp.count_stream_lt_iff.1 ?_) hlast
    rw [hst]
    exact (balanced_concat_iff.1 hbal).2 hc
  have hdigits : (p.finishOperand.append t).refresh.digits = "" := digits_append_finishOperand p t
  have htokens : (p.finishOperand.append t).refresh.tokens = ts ++ [t] :=
    hst ▸ tokens_append_finishOperand p t
  have heq : (p.finishOperand.append t).refresh = e := by
    refine hconf.ext h (hdigits.trans hd.symm) ?_ (htokens.trans ht.symm)
    exact (hconf.unsigned hdigits).trans (h.unsigned hd).symm
  cases t with
  | operand o => exact absurd rfl hkind
  | operator op => exact ⟨p, .operator op, hp, hlen, heq⟩
  | openBracket => exact ⟨p, .openBracket, hp, hlen, heq⟩
  | closeBracket => exact ⟨p, .closeBracket, hp, hlen, heq⟩

theorem Conforms.reached (h : e.Conforms) : e.Reached := by
  -- A key that appends a token may have finished a number as well, so the induction is on how many
  -- tokens there are.
  induction hn : e.tokens.length using Nat.strongRecOn generalizing e with
  | ind n ih =>
    have hrest : (restore "" .positive e.tokens).Conforms :=
      h.conforms_restore_digits (fun hn => absurd rfl hn) fun _ => rfl
    suffices hr : (restore "" .positive e.tokens).Reached by
      have hres := reached_restore hr (h.restore_eq.symm ▸ h)
      rwa [h.restore_eq] at hres
    rcases List.eq_nil_or_concat' e.tokens with ht | ⟨ts, t, ht⟩
    · rw [ht]
      exact .empty
    · obtain ⟨p, k, hp, hlen, hk⟩ := hrest.exists_edit_eq rfl ht
      have hlt : p.tokens.length < n := by
        rw [← hn, ht, List.length_append, List.length_singleton]
        omega
      rw [← hk] at hrest ⊢
      exact (ih _ hlt hp rfl).edit hrest

/-- The keys reach exactly the entries of the grammar. At each of them a key is accepted if the
entry after it conforms, and is refused with its own cause if it would not. -/
theorem reached_iff_conforms (e : Entry) :
    (e.Reached ↔ e.Conforms) ∧
      (e.Reached → ∀ k, ((e.edit k).Conforms → e.press k = .ok (e.edit k)) ∧
        (¬ (e.edit k).Conforms → e.press k = .error k.refusal)) :=
  ⟨⟨Reached.conforms, Conforms.reached⟩,
    fun h _ => ⟨h.conforms.press_of_conforms, h.conforms.press_of_not_conforms⟩⟩

theorem reached_iff_conforms_trailing_point :
    (restore "2." .negative [.openBracket, .operand ⟨"1", .positive⟩, .operator .add]).Conforms ∧
      (restore "2." .negative [.openBracket, .operand ⟨"1", .positive⟩, .operator .add]).press
          (.digit '5') =
        .ok (restore "2.5" .negative [.openBracket, .operand ⟨"1", .positive⟩, .operator .add]) ∧
      (restore "2." .negative [.openBracket, .operand ⟨"1", .positive⟩, .operator .add]).press
          .closeBracket =
        .error .closeBracketNotAllowed := by
  have reached :
      (restore "2." .negative [.openBracket, .operand ⟨"1", .positive⟩, .operator .add]).Reached :=
    Reached.empty.keys [.openBracket, .digit '1', .operator .add, .digit '2', .signFlip,
      .decimalPoint] rfl
  obtain ⟨grammar, keys⟩ := reached_iff_conforms
    (restore "2." .negative [.openBracket, .operand ⟨"1", .positive⟩, .operator .add])
  refine ⟨grammar.1 reached, (keys reached (.digit '5')).1 ?_,
    (keys reached .closeBracket).2 fun h => ?_⟩
  · exact (reached.keys [.digit '5'] rfl).conforms
  · exact (Numeral.finished_iff.1 (h.finished ⟨"2.", .negative⟩ (by decide))).2 rfl

end PocketCalculator.Entry
