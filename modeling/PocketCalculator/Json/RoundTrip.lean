import PocketCalculator.Json.Text

/-! Reading undoes writing. A text is quoted and scanned back character by character, lexemes stay
apart because whatever follows a number ends it, and the reader's stack is left as it was found
around every value. -/

namespace PocketCalculator.Json

def pieceOf (c : Char) : Piece :=
  if (shortEscapes.find? (·.1 = c)).isNone ∧ isControl c then .unit c.toNat else .char c

theorem hexUnit?_control :
    ∀ n < 32, hexUnit? '0' '0' (n / 16).digitChar (n % 16).digitChar = some n := by decide

theorem unescape?_shortEscape : ∀ p ∈ shortEscapes, p.2 ≠ 'u' ∧ unescape? p.2 = some p.1 := by
  decide

theorem scanQuoted_escape (c : Char) (cs : List Char) :
    scanQuoted (escape c ++ cs) = (scanQuoted cs).map fun (ps, rest) =>
      (pieceOf c :: ps, rest) := by
  unfold escape pieceOf
  split
  · rename_i p letter h
    have hp : p = c := by simpa using List.find?_some h
    obtain ⟨hu, he⟩ := unescape?_shortEscape _ (List.mem_of_find?_eq_some h)
    subst hp
    simp only [List.cons_append, List.nil_append, h, Option.isNone_some, Bool.false_eq_true,
      false_and, if_false]
    rw [scanQuoted]
    · simp [he]
    · intro _ _ _ _ _ e
      exact absurd e hu
  · rename_i h
    simp only [h, Option.isNone_none, true_and]
    split
    · rename_i hc
      have hn : c.toNat < 32 := by simpa [isControl] using hc
      simp only [List.cons_append, List.nil_append, scanQuoted, hexUnit?_control _ hn]
    · rename_i hc
      have hq : c ≠ '"' := by rintro rfl; simp [shortEscapes] at h
      have hb : c ≠ '\\' := by rintro rfl; simp [shortEscapes] at h
      simp only [List.cons_append, List.nil_append]
      rw [scanQuoted.eq_def]
      split <;> simp_all

theorem scanQuoted_flatMap_escape (s rest : List Char) :
    scanQuoted (s.flatMap escape ++ '"' :: rest) = some (s.map pieceOf, rest) := by
  induction s with
  | nil => simp [scanQuoted]
  | cons c s ih => simp [List.flatMap_cons, List.append_assoc, scanQuoted_escape, ih]

theorem joinPieces_map_pieceOf (s : List Char) : joinPieces none (s.map pieceOf) = some s := by
  induction s with
  | nil => rfl
  | cons c s ih =>
    rw [List.map_cons, pieceOf]
    split
    · rename_i h
      have hn : c.toNat < 32 := by simpa [isControl] using h.2
      have h1 : isLeading c.toNat = false := by simp [isLeading]; omega
      have h2 : isTrailing c.toNat = false := by simp [isTrailing]; omega
      simp [joinPieces, h1, h2, ih]
    · simp [joinPieces, ih]

theorem scanQuoted_quote (text : Option String) (rest : List Char) :
    ∃ ps, textOf ps = text ∧ quote text ++ rest = '"' :: (quote text).tail ++ rest ∧
      scanQuoted ((quote text).tail ++ rest) = some (ps, rest) := by
  cases text with
  | some s =>
    refine ⟨s.toList.map pieceOf, ?_, ?_, ?_⟩
    · simp [textOf, joinPieces_map_pieceOf]
    · simp [quote]
    · simpa [quote] using scanQuoted_flatMap_escape s.toList rest
  | none =>
    exact ⟨[.unit 0xD800], by decide, by simp [quote],
      by simp [quote, scanQuoted, hexUnit?, hexDigit?]⟩

def Ends (rest : List Char) : Prop :=
  ∀ c ∈ rest.head?, c.isDigit = false ∧ c ≠ '.' ∧ c ≠ 'e' ∧ c ≠ 'E'

theorem exists_toDigits_eq_cons (n : Nat) :
    ∃ c ds, Nat.toDigits 10 n = c :: ds ∧ c.isDigit = true := by
  obtain ⟨c, ds, h⟩ := List.exists_cons_of_ne_nil (Nat.toDigits_ne_nil (b := 10) (n := n))
  exact ⟨c, ds, h, Nat.isDigit_of_mem_toDigits (by decide) (by decide) (h ▸ List.mem_cons_self)⟩

theorem head?_toDigits_ne_zero {n : Nat} (h : 0 < n) : (Nat.toDigits 10 n).head? ≠ some '0' := by
  induction n using Nat.strongRecOn with
  | _ n ih =>
    by_cases hn : n < 10
    · rw [Nat.toDigits_of_lt_base hn]
      have : ∀ k < 10, 0 < k → [k.digitChar].head? ≠ some '0' := by decide
      exact this n hn h
    · rw [Nat.toDigits_of_base_le (by decide) (by omega), List.head?_append]
      have hd := ih (n / 10) (by omega) (by omega)
      cases hh : (Nat.toDigits 10 (n / 10)).head? with
      | none => simp [Nat.toDigits_ne_nil] at hh
      | some c => rw [hh] at hd; simpa using hd

theorem scanDigits_append {ds rest : List Char} (hd : ∀ c ∈ ds, c.isDigit = true) (hr : Ends rest) :
    scanDigits (ds ++ rest) = (ds, rest) := by
  have h1 : rest.takeWhile Char.isDigit = [] := by
    cases rest with
    | nil => rfl
    | cons c rest => simp [(hr c (by simp)).1]
  have h2 : rest.dropWhile Char.isDigit = rest := by
    cases rest with
    | nil => rfl
    | cons c rest => simp [(hr c (by simp)).1]
  simp [scanDigits, List.takeWhile_append_of_pos hd, List.dropWhile_append_of_pos hd, h1, h2]

theorem scanWhole_toDigits (n : Nat) {rest : List Char} (hr : Ends rest) :
    scanWhole (Nat.toDigits 10 n ++ rest) = some (n, rest) := by
  have hd : ∀ c ∈ Nat.toDigits 10 n, c.isDigit = true :=
    fun c hc => Nat.isDigit_of_mem_toDigits (by decide) (by decide) hc
  have hv : Nat.ofDigitChars 10 (Nat.toDigits 10 n) 0 = n := Nat.ofDigitChars_ten_toDigits
  rcases Nat.eq_zero_or_pos n with rfl | hn
  · simp [Nat.toDigits_zero, scanWhole]
  · have h0 := head?_toDigits_ne_zero hn
    obtain ⟨c, ds, h, hdigit⟩ := exists_toDigits_eq_cons n
    rw [h] at hd hv h0
    have hc : c ≠ '0' := by rintro rfl; simp at h0
    rw [h, List.cons_append, scanWhole]
    · simp only [hdigit, if_true]
      rw [scanDigits_append (fun x hx => hd x (List.mem_cons_of_mem _ hx)) hr, hv]
    · exact hc

theorem scanNumber_toDigits (n : Nat) {rest : List Char} (hr : Ends rest) :
    scanNumber (Nat.toDigits 10 n ++ rest) = some (.natural n, rest) := by
  have hf : skipFraction rest = some (false, rest) := by
    cases rest with
    | nil => rfl
    | cons c rest =>
      rw [skipFraction]
      intro cs e
      cases e
      exact (hr _ rfl).2.1 rfl
  have he : skipExponent rest = some (false, rest) := by
    cases rest with
    | nil => rfl
    | cons c rest =>
      rw [skipExponent]
      · intro cs e
        cases e
        exact (hr _ rfl).2.2.1 rfl
      · intro cs e
        cases e
        exact (hr _ rfl).2.2.2 rfl
  simp [scanNumber, scanWhole_toDigits n hr, hf, he]

theorem scanLexeme_of_isDigit {c : Char} (h : c.isDigit = true) (cs : List Char) :
    scanLexeme (c :: cs) = scanNumber (c :: cs) := by
  rw [scanLexeme.eq_def]
  split
  case h_12 => rfl
  all_goals
    rename_i e
    cases e
    exact absurd h (by decide)

def Lexeme.isOpenEnded : Lexeme → Bool
  | natural _ => true
  | decimal => true
  | _ => false

theorem scanLexeme_text (l : Lexeme) {rest : List Char} (hr : l.isOpenEnded = true → Ends rest) :
    scanLexeme (l.text ++ rest) = some (l, rest) := by
  cases l with
  | natural n =>
    rw [Lexeme.text, ← scanNumber_toDigits n (hr rfl)]
    obtain ⟨c, ds, h, hdigit⟩ := exists_toDigits_eq_cons n
    rw [h]
    exact scanLexeme_of_isDigit hdigit _
  | decimal =>
    have h := scanNumber_toDigits 0 (hr rfl)
    rw [Nat.toDigits_zero] at h
    simp only [Lexeme.text, List.cons_append, List.nil_append] at h ⊢
    rw [scanLexeme, h]
    rfl
  | string text =>
    obtain ⟨ps, ht, hq, hs⟩ := scanQuoted_quote text rest
    rw [Lexeme.text, hq, List.cons_append, scanLexeme, hs, ← ht]
    rfl
  | bool b => cases b <;> rfl
  | _ => rfl

theorem text_eq_cons (l : Lexeme) : ∃ c cs, l.text = c :: cs ∧ isSpacing c = false := by
  cases l with
  | natural n =>
    obtain ⟨c, ds, h, hdigit⟩ := exists_toDigits_eq_cons n
    refine ⟨c, ds, h, ?_⟩
    simp only [isSpacing, decide_eq_false_iff_not, not_or]
    refine ⟨?_, ?_, ?_, ?_⟩ <;> rintro rfl <;> simp at hdigit
  | string text => exact ⟨'"', (quote text).tail, by simp [Lexeme.text, quote], by decide⟩
  | bool b => cases b <;> exact ⟨_, _, rfl, by decide⟩
  | _ => exact ⟨_, _, rfl, by decide⟩

theorem lexemes?_text_append (l : Lexeme) {rest : List Char}
    (hr : l.isOpenEnded = true → Ends rest) :
    lexemes? (l.text ++ rest) = (lexemes? rest).map (l :: ·) := by
  obtain ⟨c, cs, ht, hc⟩ := text_eq_cons l
  have hs := scanLexeme_text l hr
  rw [ht, List.cons_append] at hs ⊢
  rw [lexemes?, if_neg (by simp [hc])]
  split
  · rename_i h; rw [hs] at h; cases h
  · rename_i l' rest' h; rw [hs] at h; cases h; rfl

theorem ends_text_append (l : Lexeme) (h : l ∈ [Lexeme.comma, .closeBracket, .closeBrace])
    (rest : List Char) : Ends (l.text ++ rest) := by
  simp only [List.mem_cons, List.not_mem_nil, or_false] at h
  rcases h with rfl | rfl | rfl <;> intro c hc <;> cases hc <;> decide

mutual

theorem lexemes?_lexemes (v : Json) {rest : List Char} (hr : Ends rest) :
    lexemes? (v.lexemes.flatMap Lexeme.text ++ rest) = (lexemes? rest).map (v.lexemes ++ ·) := by
  match v with
  | .array items =>
    have hb := ends_text_append .closeBracket (by simp) rest
    simp only [lexemes, List.flatMap_append, List.flatMap_cons, List.flatMap_nil, List.append_assoc,
      List.append_nil, List.cons_append]
    rw [lexemes?_text_append _ (by intro h; cases h), lexemes?_itemLexemes items hb,
      lexemes?_text_append _ (by intro h; cases h)]
    simp [Function.comp_def]
  | .object members =>
    have hb := ends_text_append .closeBrace (by simp) rest
    simp only [lexemes, List.flatMap_append, List.flatMap_cons, List.flatMap_nil, List.append_assoc,
      List.append_nil, List.cons_append]
    rw [lexemes?_text_append _ (by intro h; cases h), lexemes?_memberLexemes members hb,
      lexemes?_text_append _ (by intro h; cases h)]
    simp [Function.comp_def]
  | .null => simpa [lexemes] using lexemes?_text_append .null fun _ => hr
  | .bool b => simpa [lexemes] using lexemes?_text_append (.bool b) fun _ => hr
  | .natural n => simpa [lexemes] using lexemes?_text_append (.natural n) fun _ => hr
  | .decimal => simpa [lexemes] using lexemes?_text_append .decimal fun _ => hr
  | .string text => simpa [lexemes] using lexemes?_text_append (.string text) fun _ => hr

theorem lexemes?_itemLexemes (vs : List Json) {rest : List Char} (hr : Ends rest) :
    lexemes? ((itemLexemes vs).flatMap Lexeme.text ++ rest) =
      (lexemes? rest).map (itemLexemes vs ++ ·) := by
  match vs with
  | [] => simp [itemLexemes]
  | [v] => simpa [itemLexemes] using lexemes?_lexemes v hr
  | v :: w :: vs =>
    have hb := ends_text_append .comma (by simp)
      ((itemLexemes (w :: vs)).flatMap Lexeme.text ++ rest)
    rw [itemLexemes]
    simp only [List.isEmpty_cons, Bool.false_eq_true, if_false, List.flatMap_append,
      List.flatMap_cons, List.append_assoc]
    rw [lexemes?_lexemes v hb, lexemes?_text_append _ (by intro h; cases h),
      lexemes?_itemLexemes (w :: vs) hr]
    simp [Function.comp_def]

theorem lexemes?_memberLexemes (ms : List (Option String × Json)) {rest : List Char}
    (hr : Ends rest) :
    lexemes? ((memberLexemes ms).flatMap Lexeme.text ++ rest) =
      (lexemes? rest).map (memberLexemes ms ++ ·) := by
  match ms with
  | [] => simp [memberLexemes]
  | [(key, v)] =>
    simp only [memberLexemes, List.isEmpty_nil, if_true, List.append_nil, List.flatMap_cons,
      List.append_assoc, List.cons_append]
    rw [lexemes?_text_append _ (by intro h; cases h), lexemes?_text_append _ (by intro h; cases h),
      lexemes?_lexemes v hr]
    simp [Function.comp_def]
  | (key, v) :: m :: ms =>
    have hb := ends_text_append .comma (by simp)
      ((memberLexemes (m :: ms)).flatMap Lexeme.text ++ rest)
    rw [memberLexemes]
    simp only [List.isEmpty_cons, Bool.false_eq_true, if_false, List.flatMap_append,
      List.flatMap_cons, List.append_assoc, List.cons_append]
    rw [lexemes?_text_append _ (by intro h; cases h), lexemes?_text_append _ (by intro h; cases h),
      lexemes?_lexemes v hb, lexemes?_text_append _ (by intro h; cases h),
      lexemes?_memberLexemes (m :: ms) hr]
    simp [Function.comp_def]

end

namespace Reader

theorem run_firstItem {l : Lexeme} (h : l ≠ .closeBracket) (st : List Frame) (ls : List Lexeme) :
    run (.firstItem, st) (l :: ls) = run (.value, .array [] :: st) (l :: ls) := by
  cases l <;> first | rfl | exact absurd rfl h

end Reader

theorem lexemes_eq_cons (v : Json) : ∃ l ls, v.lexemes = l :: ls ∧ l ≠ .closeBracket := by
  cases v <;> exact ⟨_, _, rfl, by simp⟩

mutual

theorem run_lexemes (v : Json) (st : List Frame) (ls : List Lexeme) :
    Reader.run (.value, st) (v.lexemes ++ ls) = Reader.run (Reader.complete v st) ls := by
  match v with
  | .array [] => rfl
  | .array (v :: vs) =>
    obtain ⟨l, ms, hl, hn⟩ := lexemes_eq_cons v
    have hi := run_itemLexemes v vs [] st ls
    rw [List.reverse_nil, List.nil_append] at hi
    rw [← hi]
    simp only [lexemes, itemLexemes, hl, List.cons_append, List.append_assoc, List.nil_append]
    exact Reader.run_firstItem hn st _
  | .object [] => rfl
  | .object ((key, v) :: ms) =>
    have hm := run_memberLexemes key v ms [] st ls
    rw [List.reverse_nil, List.nil_append] at hm
    rw [← hm]
    simp only [lexemes, memberLexemes, List.cons_append, List.append_assoc, List.nil_append]
    rfl
  | .null => rfl
  | .bool b => rfl
  | .natural n => rfl
  | .decimal => rfl
  | .string text => rfl
termination_by sizeOf v

theorem run_itemLexemes (v : Json) (vs done : List Json) (st : List Frame) (ls : List Lexeme) :
    Reader.run (.value, .array done :: st) (itemLexemes (v :: vs) ++ .closeBracket :: ls) =
      Reader.run (Reader.complete (.array (done.reverse ++ v :: vs)) st) ls := by
  rw [itemLexemes, List.append_assoc, run_lexemes v]
  match vs with
  | [] => simp [Reader.complete, Reader.run, Reader.step]
  | w :: vs =>
    have h := run_itemLexemes w vs (v :: done) st ls
    simp only [List.reverse_cons, List.append_assoc, List.cons_append, List.nil_append] at h
    simpa [Reader.complete, Reader.run, Reader.step] using h
termination_by sizeOf v + sizeOf vs + 1

theorem run_memberLexemes (key : Option String) (v : Json) (ms done : List (Option String × Json))
    (st : List Frame) (ls : List Lexeme) :
    Reader.run (.key done, st) (memberLexemes ((key, v) :: ms) ++ .closeBrace :: ls) =
      Reader.run (Reader.complete (.object (done.reverse ++ (key, v) :: ms)) st) ls := by
  rw [memberLexemes, List.cons_append, List.cons_append, List.append_assoc]
  change Reader.run (.value, .object done key :: st) (v.lexemes ++ _) = _
  rw [run_lexemes v]
  match ms with
  | [] => simp [Reader.complete, Reader.run, Reader.step]
  | (key', w) :: ms =>
    have h := run_memberLexemes key' w ms ((key, v) :: done) st ls
    simp only [List.reverse_cons, List.append_assoc, List.cons_append, List.nil_append] at h
    simpa [Reader.complete, Reader.run, Reader.step] using h
termination_by sizeOf v + sizeOf ms + 1

end

theorem ofLexemes?_lexemes (v : Json) : ofLexemes? v.lexemes = some v := by
  have h := run_lexemes v [] []
  rw [List.append_nil] at h
  simp only [ofLexemes?, Reader.start, h]
  rfl

/-- Reading undoes writing: every value, however deep, is read back from its text. -/
theorem parse?_render (v : Json) : parse? v.render = some v := by
  have h := lexemes?_lexemes v (show Ends [] by intro c hc; cases hc)
  rw [List.append_nil, lexemes?, Option.map_some, List.append_nil] at h
  simp [parse?, render, h, ofLexemes?_lexemes]

end PocketCalculator.Json
