import PocketCalculator.Proofs.Entry.Conforms

/-! The equation can be read back. A token is known from the front of its text if what follows
neither goes on with a number nor makes an open bracket that of a negative number, and the order of
the tokens sees to that. -/

namespace PocketCalculator

namespace Token

def scan : List Char → Option (Token × List Char)
  | [] => none
  -- No operator may follow an open bracket, so that this minus is the sign of a number.
  | '(' :: '-' :: cs =>
    some (.operand ⟨.ofList (cs.takeWhile Numeral.isPart), .negative⟩,
      (cs.dropWhile Numeral.isPart).tail)
  | '(' :: cs => some (.openBracket, cs)
  | ')' :: cs => some (.closeBracket, cs)
  | c :: cs =>
    if Numeral.isPart c then
      some (.operand ⟨.ofList ((c :: cs).takeWhile Numeral.isPart), .positive⟩,
        (c :: cs).dropWhile Numeral.isPart)
    else (Operator.ofSymbol? c.toString).map fun op => (.operator op, cs)

/-- What follows a token of the given kind does not change how the token is read. -/
def Kind.EndsBefore : Kind → List Char → Prop
  | operand, rest => ∀ c ∈ rest.head?, Numeral.isPart c = false
  | openBracket, rest => rest.head? ≠ some '-'
  | _, _ => True

variable {rest ds : List Char}

theorem Kind.EndsBefore.split (h : Kind.operand.EndsBefore rest)
    (hd : ∀ c ∈ ds, Numeral.isPart c = true) :
    (ds ++ rest).takeWhile Numeral.isPart = ds ∧ (ds ++ rest).dropWhile Numeral.isPart = rest := by
  rw [List.takeWhile_append_of_pos hd, List.dropWhile_append_of_pos hd]
  cases rest with
  | nil => simp
  | cons c rest => simp [h c rfl]

theorem scan_positive (hne : ds ≠ []) (hd : ∀ c ∈ ds, Numeral.isPart c = true)
    (hr : Kind.operand.EndsBefore rest) :
    scan (ds ++ rest) = some (.operand ⟨.ofList ds, .positive⟩, rest) := by
  obtain ⟨htake, hdrop⟩ := hr.split hd
  cases ds with
  | nil => exact absurd rfl hne
  | cons c ds =>
    have hc : Numeral.isPart c = true := hd c List.mem_cons_self
    have hopen : c ≠ '(' := by rintro rfl; exact absurd hc (by decide)
    have hclose : c ≠ ')' := by rintro rfl; exact absurd hc (by decide)
    rw [List.cons_append] at htake hdrop ⊢
    rw [scan, if_pos hc, htake, hdrop]
    · exact fun _ h => absurd h hopen
    · exact fun h => absurd h hopen
    · exact fun h => absurd h hclose

theorem scan_negative (hd : ∀ c ∈ ds, Numeral.isPart c = true) :
    scan ('(' :: '-' :: (ds ++ ')' :: rest)) = some (.operand ⟨.ofList ds, .negative⟩, rest) := by
  have hclose : Kind.operand.EndsBefore (')' :: rest) := by
    intro c hc
    cases hc
    rfl
  obtain ⟨htake, hdrop⟩ := hclose.split hd
  rw [scan, htake, hdrop, List.tail_cons]

theorem scan_openBracket (hr : rest.head? ≠ some '-') :
    scan ('(' :: rest) = some (.openBracket, rest) := by
  rw [scan]
  rintro cs rfl
  exact hr rfl

theorem scan_shown_append {t : Token} (ht : ∀ o, t = .operand o → Numeral.Begun o.digits.toList)
    (hr : t.kind.EndsBefore rest) : scan (t.shown.toList ++ rest) = some (t, rest) := by
  cases t with
  | operand o =>
    have hb := ht o rfl
    obtain ⟨digits, sign⟩ := o
    rw [← String.ofList_toList (s := digits)]
    cases sign with
    | positive => simpa [shown, Operand.shown] using scan_positive hb.ne_nil hb.isPart_of_mem hr
    | negative => simpa [shown, Operand.shown] using scan_negative hb.isPart_of_mem
  | operator op => cases op <;> rfl
  | openBracket => exact scan_openBracket hr
  | closeBracket => rfl

end Token

def displayed (ts : List Token) : List Char := ts.flatMap fun t => t.shown.toList

def Legible (ts : List Token) : Prop := ∀ o, .operand o ∈ ts → Numeral.Begun o.digits.toList

variable {ts us : List Token} {t : Token} {last : Option Token.Kind}

theorem Legible.tail (h : Legible (t :: ts)) : Legible ts :=
  fun o ho => h o (List.mem_cons_of_mem _ ho)

theorem displayed_cons (t : Token) (ts : List Token) :
    displayed (t :: ts) = t.shown.toList ++ displayed ts := List.flatMap_cons

theorem isPart_of_head?_displayed (ho : OrderedAfter (some .operand) ts) :
    ∀ c ∈ (displayed ts).head?, Numeral.isPart c = false := by
  intro c hc
  cases ts with
  | nil => cases hc
  | cons t ts =>
    cases t with
    | operand o => exact absurd rfl (Token.Kind.mayCome_operand_iff.1 ho.1).1
    | operator op => cases op <;> cases hc <;> rfl
    | openBracket => exact absurd rfl (Token.Kind.mayCome_openBracket_iff.1 ho.1).1
    | closeBracket => cases hc; rfl

theorem head?_displayed_ne_minus (ho : OrderedAfter (some .openBracket) ts) (hl : Legible ts) :
    (displayed ts).head? ≠ some '-' := by
  cases ts with
  | nil => simp [displayed]
  | cons t ts =>
    rw [displayed_cons]
    cases t with
    | operand o =>
      have hb := hl o List.mem_cons_self
      obtain ⟨digits, sign⟩ := o
      cases sign with
      | positive =>
        intro h
        rw [Token.shown, Operand.shown, List.head?_append_of_ne_nil _ hb.ne_nil] at h
        exact absurd (hb.isPart_of_mem _ (List.mem_of_head? h)) (by decide)
      | negative => simp [Token.shown, Operand.shown]
    | operator op =>
      rcases Token.Kind.mayCome_operator_iff.1 ho.1 with h | h
      · cases h
      · cases h
    | openBracket => simp [Token.shown]
    | closeBracket => simp [Token.shown]

theorem endsBefore_displayed {k : Token.Kind} (ho : OrderedAfter (some k) ts) (hl : Legible ts) :
    k.EndsBefore (displayed ts) := by
  cases k with
  | operand => exact isPart_of_head?_displayed ho
  | operator => trivial
  | openBracket => exact head?_displayed_ne_minus ho hl
  | closeBracket => trivial

theorem scan_displayed_cons (ho : OrderedAfter last (t :: ts)) (hl : Legible (t :: ts)) :
    Token.scan (displayed (t :: ts)) = some (t, displayed ts) := by
  rw [displayed_cons]
  apply Token.scan_shown_append
  · rintro o rfl
    exact hl o List.mem_cons_self
  · exact endsBefore_displayed ho.2 hl.tail

theorem eq_of_displayed_eq (ht : OrderedAfter last ts) (hu : OrderedAfter last us)
    (hlt : Legible ts) (hlu : Legible us) (h : displayed ts = displayed us) : ts = us := by
  induction ts generalizing last us with
  | nil =>
    cases us with
    | nil => rfl
    | cons u us =>
      have hs := scan_displayed_cons hu hlu
      rw [← h] at hs
      cases hs
  | cons t ts ih =>
    -- One scan takes the first token off both texts.
    have hs := scan_displayed_cons ht hlt
    rw [h] at hs
    cases us with
    | nil => cases hs
    | cons u us =>
      rw [scan_displayed_cons hu hlu] at hs
      obtain ⟨rfl, hrest⟩ := Prod.mk.inj (Option.some.inj hs)
      rw [ih ht.2 hu.2 hlt.tail hlu.tail hrest.symm]

namespace Entry
variable {e e' : Entry}

theorem Conforms.legible (h : e.Conforms) : Legible e.stream := fun _ => h.begun_of_mem_stream

theorem Conforms.equation_eq (h : e.Conforms) :
    e.equation = String.join (e.stream.map Token.shown) := by
  rw [equation]
  by_cases hd : e.digits = ""
  · rw [stream_of_eq hd, hd, h.unsigned hd]
    exact String.append_empty
  · rw [stream_of_ne hd, List.map_append, String.join_append, List.map_singleton, String.join_cons,
      String.join_nil, String.append_empty]
    rfl

theorem Conforms.toList_equation (h : e.Conforms) : e.equation.toList = displayed e.stream := by
  rw [h.equation_eq, String.toList_join, List.flatMap_map]
  rfl

theorem Conforms.eq_of_stream_eq (h : e.Conforms) (h' : e'.Conforms) (hs : e.stream = e'.stream) :
    e = e' := by
  have hlast : lastKind e.stream = lastKind e'.stream := congrArg lastKind hs
  rw [lastKind_stream, lastKind_stream] at hlast
  by_cases hd : e.digits = "" <;> by_cases hd' : e'.digits = ""
  · rw [stream_of_eq hd, stream_of_eq hd'] at hs
    exact h.ext h' (hd.trans hd'.symm) ((h.unsigned hd).trans (h'.unsigned hd').symm) hs
  · rw [if_pos hd, if_neg hd'] at hlast
    exact absurd hlast h.resting
  · rw [if_neg hd, if_pos hd'] at hlast
    exact absurd hlast.symm h'.resting
  · rw [stream_of_ne hd, stream_of_ne hd'] at hs
    obtain ⟨ht, ho⟩ := List.append_inj' hs rfl
    obtain ⟨hdigits, hsign⟩ := Operand.mk.inj (Token.operand.inj (List.head_eq_of_cons_eq ho))
    exact h.ext h' hdigits hsign ht

/-- The equation says all there is: different entries that keys bring about are displayed
differently. -/
theorem eq_of_equation_eq (h : e.Reached) (h' : e'.Reached) (heq : e.equation = e'.equation) :
    e = e' := by
  have hc := h.conforms
  have hc' := h'.conforms
  have htext : displayed e.stream = displayed e'.stream := by
    rw [← hc.toList_equation, ← hc'.toList_equation, heq]
  exact hc.eq_of_stream_eq hc'
    (eq_of_displayed_eq hc.ordered hc'.ordered hc.legible hc'.legible htext)

theorem eq_of_equation_eq_sign_moved :
    ∃ e e' : Entry,
      [EditKey.openBracket, .digit '1', .signFlip, .decimalPoint, .digit '5', .operator .subtract,
        .digit '2'].foldlM Entry.press Entry.empty = .ok e ∧
      [EditKey.openBracket, .digit '1', .decimalPoint, .digit '5', .signFlip, .operator .subtract,
        .digit '2', .signFlip, .signFlip].foldlM Entry.press Entry.empty = .ok e' ∧
      e.equation = "((-1.5)-2" ∧ e'.equation = "((-1.5)-2" ∧ e = e' := by
  refine ⟨_, _, rfl, rfl, by decide, by decide, eq_of_equation_eq ?_ ?_ (by decide)⟩
  · exact Reached.empty.keys [.openBracket, .digit '1', .signFlip, .decimalPoint, .digit '5',
      .operator .subtract, .digit '2'] rfl
  · exact Reached.empty.keys [.openBracket, .digit '1', .decimalPoint, .digit '5', .signFlip,
      .operator .subtract, .digit '2', .signFlip, .signFlip] rfl

end Entry
end PocketCalculator
