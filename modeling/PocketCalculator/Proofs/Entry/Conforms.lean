import PocketCalculator.Entry.Reached
import PocketCalculator.Proofs.Entry.Admission
import PocketCalculator.Proofs.Entry.Numeral

/-! The grammar of entries. The keys reach the entries that conform to it and no others, and a key
is accepted just where the entry after it conforms again. -/

namespace PocketCalculator.Entry

/-- What all entries have in common that keys alone bring about. -/
structure Conforms (e : Entry) : Prop where
  ordered : Ordered e.stream
  balanced : Balanced e.tokens
  finished : ∀ o, .operand o ∈ e.tokens → Numeral.Finished o.digits.toList
  begun : e.digits ≠ "" → Numeral.Begun e.digits.toList
  resting : lastKind e.tokens ≠ some .operand
  unsigned : e.digits = "" → e.sign = .positive
  point : e.hasPoint = decide ('.' ∈ e.digits.toList)
  brackets : e.openBrackets + e.tokens.count .closeBracket = e.tokens.count .openBracket
  allowed : e.allowed = e.derivedAllowed

variable {e : Entry}

theorem conforms_empty : Entry.empty.Conforms where
  ordered := trivial
  balanced := balanced_nil
  finished _ h := absurd h List.not_mem_nil
  begun h := absurd rfl h
  resting := by decide
  unsigned _ := rfl
  point := by decide
  brackets := rfl
  allowed := rfl

theorem Conforms.ordered_tokens (h : e.Conforms) : Ordered e.tokens := by
  by_cases hd : e.digits = ""
  · exact stream_of_eq hd ▸ h.ordered
  · exact (ordered_concat_iff.1 (stream_of_ne hd ▸ h.ordered)).1

theorem Conforms.mayCome_operand (h : e.Conforms) (hd : e.digits ≠ "") :
    Token.Kind.MayCome (lastKind e.tokens) .operand :=
  (ordered_concat_iff.1 (stream_of_ne hd ▸ h.ordered)).2

theorem Conforms.begun_of_mem_stream (h : e.Conforms) {o : Operand} (ho : .operand o ∈ e.stream) :
    Numeral.Begun o.digits.toList := by
  rcases operand_mem_stream_iff.1 ho with ho | ⟨hd, rfl⟩
  · exact (Numeral.finished_iff.1 (h.finished o ho)).1
  · exact h.begun hd

theorem Conforms.ext {e' : Entry} (h : e.Conforms) (h' : e'.Conforms) (hd : e.digits = e'.digits)
    (hs : e.sign = e'.sign) (ht : e.tokens = e'.tokens) : e = e' := by
  have hp : e.hasPoint = e'.hasPoint := by rw [h.point, h'.point, hd]
  have hb : e.openBrackets = e'.openBrackets := by
    have h1 := h.brackets
    have h2 := h'.brackets
    rw [ht] at h1
    omega
  have ha : e.allowed = e'.allowed := by
    rw [h.allowed, h'.allowed, derivedAllowed, derivedAllowed, hd, hp, hb, ht]
  cases e
  cases e'
  simp_all

theorem Conforms.mayCome_operand_iff (h : e.Conforms) :
    Token.Kind.MayCome (lastKind e.tokens) .operand ↔ lastKind e.tokens ≠ some .closeBracket := by
  rw [Token.Kind.mayCome_operand_iff, and_iff_right h.resting]

theorem Conforms.conforms_retype_iff (h : e.Conforms) {ds : String} (hds : ds ≠ "") {p : Bool} :
    (refresh { e with digits := ds, hasPoint := p }).Conforms ↔
      Token.Kind.MayCome (lastKind e.tokens) .operand ∧ Numeral.Begun ds.toList ∧
        p = decide ('.' ∈ ds.toList) := by
  have hst : (refresh { e with digits := ds, hasPoint := p }).stream =
      e.tokens ++ [.operand ⟨ds, e.sign⟩] := stream_of_ne hds
  constructor
  · intro h'
    exact ⟨(ordered_concat_iff.1 (hst ▸ h'.ordered)).2, h'.begun hds, h'.point⟩
  · rintro ⟨hm, hb, hp⟩
    exact { h with
      ordered := hst ▸ ordered_concat_iff.2 ⟨h.ordered_tokens, hm⟩
      begun := fun _ => hb
      unsigned := fun hn => absurd hn hds
      point := hp
      allowed := rfl }

theorem Conforms.conforms_digit_iff (h : e.Conforms) (c : Char) :
    (e.edit (.digit c)).Conforms ↔ e.Admits .number ∧ c.isDigit = true := by
  have hne : e.digits.push c ≠ "" := by simp
  have hn : (e.edit (.digit c)).Conforms ↔ _ := h.conforms_retype_iff hne
  rw [hn, h.mayCome_operand_iff, String.toList_push, Numeral.begun_concat_iff, h.point]
  constructor
  · rintro ⟨hl, ⟨hc, -⟩ | ⟨rfl, hd⟩, hp⟩
    · exact ⟨.inr hl, hc⟩
    · simp [hd.point_not_mem] at hp
  · rintro ⟨hl, hc⟩
    have hpoint : c ≠ '.' := by rintro rfl; exact absurd hc (by decide)
    refine ⟨?_, .inl ⟨hc, ?_⟩, by simp [hpoint.symm]⟩
    · rcases hl with hd | hl
      · exact h.mayCome_operand_iff.1 (h.mayCome_operand hd)
      · exact hl
    · by_cases hd : e.digits = ""
      · exact .inl (by simp [hd])
      · exact .inr (h.begun hd)

theorem Conforms.conforms_decimalPoint_iff (h : e.Conforms) :
    (e.edit .decimalPoint).Conforms ↔ e.Admits .decimalPoint := by
  have hne : e.digits.push '.' ≠ "" := by simp
  have hn : (e.edit .decimalPoint).Conforms ↔ _ := h.conforms_retype_iff hne
  rw [hn, String.toList_push, Numeral.begun_concat_iff, Admits, h.point]
  constructor
  · rintro ⟨-, ⟨hc, -⟩ | ⟨-, hd⟩, -⟩
    · exact absurd hc (by decide)
    · have hpoint : '.' ∉ e.digits.toList := hd.point_not_mem
      refine ⟨fun he => hd.1 (by simp [he]), fun hl => hpoint (List.mem_of_getLast? hl), ?_⟩
      exact decide_eq_false hpoint
  · rintro ⟨hd, -, hp⟩
    refine ⟨h.mayCome_operand hd, .inr ⟨rfl, ?_⟩, by simp⟩
    exact Numeral.allDigits_iff.2 ⟨h.begun hd, of_decide_eq_false hp⟩

theorem Conforms.conforms_signFlip_iff (h : e.Conforms) :
    (e.edit .signFlip).Conforms ↔ e.Admits .sign := by
  constructor
  · intro h' hd
    have hs : e.sign.flip = .positive := h'.unsigned hd
    rw [h.unsigned hd] at hs
    cases hs
  · intro hd
    have hst : (e.edit .signFlip).stream = e.tokens ++ [.operand ⟨e.digits, e.sign.flip⟩] :=
      stream_of_ne hd
    exact { h with
      ordered := hst ▸ ordered_concat_iff.2 ⟨h.ordered_tokens, h.mayCome_operand hd⟩
      unsigned := fun hn => absurd hn hd }

theorem append_brackets {t : Token}
    (hb : e.openBrackets + e.tokens.count .closeBracket = e.tokens.count .openBracket)
    (hc : t = .closeBracket → 0 < e.openBrackets) :
    (e.append t).openBrackets + (e.append t).tokens.count .closeBracket =
      (e.append t).tokens.count .openBracket := by
  have hclose : (e.append t).tokens.count .closeBracket = _ := count_concat e.tokens t .closeBracket
  have hopen : (e.append t).tokens.count .openBracket = _ := count_concat e.tokens t .openBracket
  rw [hclose, hopen]
  cases t with
  | operand o => simpa [append] using hb
  | operator op => simpa [append] using hb
  | openBracket =>
    simp only [append, reduceCtorEq, if_false, if_true]
    omega
  | closeBracket =>
    have := hc rfl
    simp only [append, reduceCtorEq, if_false, if_true]
    omega

theorem Conforms.count_stream_lt_iff (h : e.Conforms) :
    e.stream.count .closeBracket < e.stream.count .openBracket ↔ 0 < e.openBrackets := by
  have hb := h.brackets
  rw [count_stream (by decide), count_stream (by decide)]
  omega

theorem Conforms.append (h : e.Conforms) {t : Token} (ht : t.kind ≠ .operand)
    (hm : Token.Kind.MayCome (lastKind e.stream) t.kind)
    (hc : t = .closeBracket → 0 < e.openBrackets)
    (hl : e.digits ≠ "" → e.digits.toList.getLast? ≠ some '.') :
    (e.finishOperand.append t).refresh.Conforms := by
  have hd : (e.finishOperand.append t).refresh.digits = "" := digits_append_finishOperand e t
  have htok : (e.finishOperand.append t).refresh.tokens = e.stream ++ [t] :=
    tokens_append_finishOperand e t
  have hst : (e.finishOperand.append t).refresh.stream = e.stream ++ [t] :=
    stream_append_finishOperand e t
  exact {
    ordered := hst ▸ ordered_concat_iff.2 ⟨h.ordered, hm⟩
    balanced := htok ▸ balanced_concat_iff.2
      ⟨balanced_stream_iff.2 h.balanced, fun he => h.count_stream_lt_iff.2 (hc he)⟩
    finished := by
      intro o ho
      rcases List.mem_append.1 (htok ▸ ho) with ho | ho
      · rcases operand_mem_stream_iff.1 ho with ho | ⟨hn, rfl⟩
        · exact h.finished o ho
        · exact Numeral.finished_iff.2 ⟨h.begun hn, hl hn⟩
      · exact absurd (List.mem_singleton.1 ho ▸ rfl) ht
    begun := fun hn => absurd hd hn
    resting := by
      rw [htok, lastKind_concat]
      exact fun hk => ht (Option.some.inj hk)
    unsigned := fun _ => (sign_finishOperand e).trans (ite_eq_right_iff.2 h.unsigned)
    point := by
      rw [hd]
      exact (hasPoint_finishOperand e).trans (ite_eq_right_iff.2 fun he => by simp [h.point, he])
    brackets := by
      have hb := h.brackets
      rw [← count_stream (by decide), ← count_stream (by decide), ← tokens_finishOperand,
        ← openBrackets_finishOperand] at hb
      exact append_brackets hb fun he => (openBrackets_finishOperand e).symm ▸ hc he
    allowed := rfl }

theorem Conforms.conforms_append_iff (h : e.Conforms) {t : Token} (ht : t.kind ≠ .operand) :
    (e.finishOperand.append t).refresh.Conforms ↔
      Token.Kind.MayCome (lastKind e.stream) t.kind ∧ (t = .closeBracket → 0 < e.openBrackets) ∧
        (e.digits ≠ "" → e.digits.toList.getLast? ≠ some '.') := by
  refine ⟨fun h' => ⟨?_, fun hc => ?_, fun hn => ?_⟩, fun ⟨hm, hc, hl⟩ => h.append ht hm hc hl⟩
  · have hord := h'.ordered_tokens
    rw [refresh, tokens_append_finishOperand] at hord
    exact (ordered_concat_iff.1 hord).2
  · have hbal := h'.balanced
    rw [refresh, tokens_append_finishOperand] at hbal
    exact h.count_stream_lt_iff.1 ((balanced_concat_iff.1 hbal).2 hc)
  · have hmem : .operand ⟨e.digits, e.sign⟩ ∈ (e.finishOperand.append t).refresh.tokens := by
      rw [refresh, tokens_append_finishOperand, stream_of_ne hn]
      simp
    exact (Numeral.finished_iff.1 (h'.finished _ hmem)).2

theorem Conforms.tokens_ne_nil (h : e.Conforms) (hb : 0 < e.openBrackets) : e.tokens ≠ [] := by
  intro hn
  have := h.brackets
  rw [hn, List.count_nil, List.count_nil] at this
  omega

theorem Conforms.conforms_openBracket_iff (h : e.Conforms) :
    (e.edit .openBracket).Conforms ↔ e.Admits .openBracket := by
  have ha : (e.edit .openBracket).Conforms ↔ _ :=
    h.conforms_append_iff (t := .openBracket) (by decide)
  have hr := h.resting
  rw [ha, Token.kind, Token.Kind.mayCome_openBracket_iff, lastKind_stream, Admits]
  by_cases hd : e.digits = ""
  · simp [hd, hr]
  · simp [hd]

theorem Conforms.conforms_closeBracket_iff (h : e.Conforms) :
    (e.edit .closeBracket).Conforms ↔ e.Admits .closeBracket := by
  have ha : (e.edit .closeBracket).Conforms ↔ _ :=
    h.conforms_append_iff (t := .closeBracket) (by decide)
  rw [ha, Token.kind, Token.Kind.mayCome_closeBracket_iff, lastKind_stream, Admits]
  by_cases hd : e.digits = ""
  · have hl : 0 < e.openBrackets → lastKind e.tokens ≠ none := fun hb hn =>
      h.tokens_ne_nil hb (lastKind_eq_none_iff.1 hn)
    simpa [hd] using hl
  · simp [hd]

theorem Conforms.conforms_operator_iff (h : e.Conforms) (op : Operator) :
    (e.edit (.operator op)).Conforms ↔ e.Admits .operator := by
  have ha : (e.edit (.operator op)).Conforms ↔ _ :=
    h.conforms_append_iff (t := .operator op) (by simp [Token.kind])
  have hr := h.resting
  rw [ha, Token.kind, Token.Kind.mayCome_operator_iff, lastKind_stream, Admits]
  by_cases hd : e.digits = ""
  · simp [hd, hr]
  · simp [hd]

/-- The table of admission keeps the grammar and refuses nothing else. -/
theorem Conforms.conforms_edit_iff (h : e.Conforms) (k : EditKey) :
    (e.edit k).Conforms ↔ e.Admits k.requirement ∧ ∀ c, k = .digit c → c.isDigit = true := by
  cases k with
  | digit c => simpa [EditKey.requirement] using h.conforms_digit_iff c
  | signFlip => simpa [EditKey.requirement] using h.conforms_signFlip_iff
  | decimalPoint => simpa [EditKey.requirement] using h.conforms_decimalPoint_iff
  | openBracket => simpa [EditKey.requirement] using h.conforms_openBracket_iff
  | closeBracket => simpa [EditKey.requirement] using h.conforms_closeBracket_iff
  | operator op => simpa [EditKey.requirement] using h.conforms_operator_iff op

theorem Conforms.press_of_conforms (h : e.Conforms) {k : EditKey} (hk : (e.edit k).Conforms) :
    e.press k = .ok (e.edit k) := by
  obtain ⟨ha, hc⟩ := (h.conforms_edit_iff k).1 hk
  exact press_eq_ok_iff.2 ⟨(allows_iff h.allowed _).2 ha, hc, rfl⟩

theorem Conforms.press_of_not_conforms (h : e.Conforms) {k : EditKey} (hk : ¬ (e.edit k).Conforms) :
    e.press k = .error k.refusal :=
  press_eq_error fun ⟨ha, hc⟩ => hk ((h.conforms_edit_iff k).2 ⟨(allows_iff h.allowed _).1 ha, hc⟩)

theorem keys_cons_eq_ok_iff {e' : Entry} {k : EditKey} {ks : List EditKey} :
    (k :: ks).foldlM Entry.press e = .ok e' ↔
      ∃ next, e.press k = .ok next ∧ ks.foldlM Entry.press next = .ok e' := by
  rw [List.foldlM_cons]
  cases e.press k with
  | error r => exact iff_of_false (fun h => by cases h) (by rintro ⟨next, h, -⟩; cases h)
  | ok next => exact ⟨fun h => ⟨next, rfl, h⟩, by rintro ⟨_, ⟨⟩, h⟩; exact h⟩

theorem keys_induction {P : Entry → Prop} {e e' : Entry} {ks : List EditKey} (h : P e)
    (hstep : ∀ {e e' : Entry} {k : EditKey}, P e → e.press k = .ok e' → P e')
    (hk : ks.foldlM Entry.press e = .ok e') : P e' := by
  induction ks generalizing e with
  | nil =>
    cases hk
    exact h
  | cons k ks ih =>
    obtain ⟨next, hp, hk⟩ := keys_cons_eq_ok_iff.1 hk
    exact ih (hstep h hp) hk

theorem Reached.keys {e' : Entry} (h : e.Reached) (ks : List EditKey)
    (hk : ks.foldlM Entry.press e = .ok e') : e'.Reached :=
  keys_induction h .press hk

theorem Conforms.press (h : e.Conforms) {k : EditKey} {e' : Entry} (hk : e.press k = .ok e') :
    e'.Conforms := by
  obtain ⟨ha, hc, rfl⟩ := press_eq_ok_iff.1 hk
  exact (h.conforms_edit_iff k).2 ⟨(allows_iff h.allowed _).1 ha, hc⟩

theorem Reached.conforms (h : e.Reached) : e.Conforms := by
  induction h with
  | empty => exact conforms_empty
  | press _ hk ih => exact ih.press hk

end PocketCalculator.Entry
