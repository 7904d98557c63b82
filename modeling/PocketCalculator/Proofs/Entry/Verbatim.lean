import PocketCalculator.Proofs.Entry.Equation
import Mathlib.Algebra.Ring.Parity
import Mathlib.Data.List.Forall2
import Mathlib.Data.List.SplitBy

/-! An entry is what was typed. Keys that are refused are passed over. Of those that are accepted
the keys of one number stand next to each other, and every other key makes a token alone, so that
the runs of keys are the tokens one by one. A run is shown wrapped where its sign was changed an odd
number of times. -/

namespace PocketCalculator

namespace EditKey

def text : EditKey → String
  | digit c => String.singleton c
  | signFlip => ""
  | decimalPoint => "."
  | openBracket => "("
  | closeBracket => ")"
  | operator op => op.symbol

def isNumeric : EditKey → Bool
  | digit _ | signFlip | decimalPoint => true
  | _ => false

def textOf (ks : List EditKey) : String := String.join (ks.map text)

def runs (ks : List EditKey) : List (List EditKey) :=
  ks.splitBy fun a b => a.isNumeric && b.isNumeric

def shownRun (run : List EditKey) : String :=
  if Odd (run.count .signFlip) then "(-" ++ textOf run ++ ")" else textOf run

theorem textOf_append (ks ls : List EditKey) : textOf (ks ++ ls) = textOf ks ++ textOf ls := by
  rw [textOf, List.map_append, String.join_append]
  rfl

theorem textOf_singleton (k : EditKey) : textOf [k] = k.text := by
  rw [textOf, List.map_singleton, String.join_cons, String.join_nil, String.append_empty]

theorem textOf_flatten (rs : List (List EditKey)) :
    textOf rs.flatten = String.join (rs.map textOf) := by
  induction rs with
  | nil => rfl
  | cons run rs ih => rw [List.flatten_cons, textOf_append, ih, List.map_cons, String.join_cons]

end EditKey

def Token.unsigned : Token → String
  | operand o => o.digits
  | operator op => op.symbol
  | openBracket => "("
  | closeBracket => ")"

open EditKey

/-- The keys that make a token. A number is made from its first digit on; it is negative if from
there on its sign was changed an odd number of times. -/
inductive Makes : List EditKey → Token → Prop where
  | number {c : Char} {ks : List EditKey} {o : Operand} :
      (∀ k ∈ ks, k.isNumeric = true) → o.digits = textOf (.digit c :: ks) →
      (o.sign = .negative ↔ Odd (ks.count .signFlip)) → Makes (.digit c :: ks) (.operand o)
  | operator (op : Operator) : Makes [.operator op] (.operator op)
  | openBracket : Makes [.openBracket] .openBracket
  | closeBracket : Makes [.closeBracket] .closeBracket

namespace Makes
variable {run : List EditKey} {t : Token} {rs : List (List EditKey)} {ts : List Token}

theorem textOf_eq (h : Makes run t) : textOf run = t.unsigned := by
  cases h with
  | number hks hdigits hsign => exact hdigits.symm
  | operator op => exact textOf_singleton _
  | openBracket => rfl
  | closeBracket => rfl

theorem shownRun_eq (h : Makes run t) : shownRun run = t.shown := by
  have htext := h.textOf_eq
  cases h with
  | @number c ks o hks hdigits hsign =>
    have hcount : (EditKey.digit c :: ks).count .signFlip = ks.count .signFlip :=
      List.count_cons_of_ne (by simp)
    rw [shownRun, hcount, htext, Token.unsigned, Token.shown, Operand.shown]
    cases ho : o.sign with
    | positive => rw [if_neg fun hodd => by rw [hsign.2 hodd] at ho; cases ho]
    | negative => rw [if_pos (hsign.1 ho)]
  | operator op => exact htext
  | openBracket => exact htext
  | closeBracket => exact htext

theorem map_eq {f : List EditKey → String} {g : Token → String} (h : List.Forall₂ Makes rs ts)
    (hfg : ∀ {run t}, Makes run t → f run = g t) : rs.map f = ts.map g := by
  have hrel : List.Forall₂ Eq (rs.map f) (ts.map g) := List.rel_map (fun _ _ h => hfg h) h
  rwa [List.forall₂_eq_eq_eq] at hrel

theorem concat {ds ds' : String} {s s' : Sign} {k : EditKey} (h : Makes run (.operand ⟨ds, s⟩))
    (hk : k.isNumeric = true) (hds : ds' = ds ++ k.text)
    (hs : s' = if k = .signFlip then s.flip else s) :
    Makes (run ++ [k]) (.operand ⟨ds', s'⟩) := by
  cases h with
  | @number c ks _ hks hdigits hsign =>
    change ds = _ at hdigits
    change s = .negative ↔ _ at hsign
    rw [List.cons_append]
    refine .number (fun l hl => ?_) ?_ ?_
    · rcases List.mem_append.1 hl with hl | hl
      · exact hks l hl
      · exact List.mem_singleton.1 hl ▸ hk
    · change ds' = _
      rw [hds, hdigits, ← List.cons_append, textOf_append, textOf_singleton]
    · change s' = .negative ↔ _
      rw [hs, List.count_append, List.count_singleton]
      by_cases hflip : k = .signFlip
      · subst hflip
        rw [if_pos rfl, if_pos (by decide), Nat.odd_add_one, ← hsign]
        cases s <;> simp [Sign.flip]
      · rw [if_neg hflip, if_neg (by simpa using hflip), Nat.add_zero, hsign]

theorem isNumeric_iff (h : Makes run t) {k : EditKey} (hk : k ∈ run) :
    k.isNumeric = true ↔ t.kind = .operand := by
  cases h with
  | number hks =>
    rcases List.mem_cons.1 hk with rfl | hk
    · exact iff_of_true rfl rfl
    · exact iff_of_true (hks k hk) rfl
  | operator | openBracket | closeBracket =>
    obtain rfl := List.mem_singleton.1 hk
    exact iff_of_false (fun h => by cases h) (fun h => by cases h)

theorem ne_nil (h : Makes run t) : run ≠ [] := by
  cases h <;> exact List.cons_ne_nil _ _

theorem runs_eq_singleton (h : Makes run t) : runs run = [run] := by
  cases h with
  | @number c ks _ hks =>
    have hall : ∀ k ∈ EditKey.digit c :: ks, k.isNumeric = true :=
      List.forall_mem_cons.2 ⟨rfl, hks⟩
    refine List.splitBy_of_isChain (List.cons_ne_nil _ _) (List.Pairwise.isChain ?_)
    exact List.pairwise_of_forall_mem_list fun a ha b hb =>
      Bool.and_eq_true_iff.2 ⟨hall a ha, hall b hb⟩
  | operator op => rfl
  | openBracket => rfl
  | closeBracket => rfl

theorem runs_flatten (h : List.Forall₂ Makes rs ts) {last : Option Token.Kind}
    (ho : OrderedAfter last ts) : runs rs.flatten = rs := by
  induction h generalizing last with
  | nil => rfl
  | @cons run t rs ts hrun hrs ih =>
    have hapart : ∀ x ∈ run.getLast?, ∀ y ∈ rs.flatten.head?,
        (x.isNumeric && y.isNumeric) = false := by
      intro x hx y hy
      cases hrs with
      | nil => cases hy
      | @cons next u _ _ hnext =>
        rw [List.flatten_cons, List.head?_append_of_ne_nil _ hnext.ne_nil] at hy
        rw [Bool.and_eq_false_iff, ← Bool.not_eq_true, ← Bool.not_eq_true,
          hrun.isNumeric_iff (List.mem_of_getLast? hx), hnext.isNumeric_iff (List.mem_of_head? hy),
          ← not_and_or]
        -- No number follows another.
        rintro ⟨ht, hu⟩
        have hcome := ho.2.1
        rw [ht, hu, Token.Kind.mayCome_operand_iff] at hcome
        exact hcome.1 rfl
    rw [List.flatten_cons, runs, List.splitBy_append hapart]
    exact congr (congrArg _ hrun.runs_eq_singleton) (ih ho.2)

end Makes

namespace Entry
variable {e e' : Entry} {k : EditKey} {done : List EditKey}

def pressAll (e : Entry) : List EditKey → Entry
  | [] => e
  | k :: ks =>
    match e.press k with
    | .ok e' => e'.pressAll ks
    | .error _ => e.pressAll ks

def accepted (e : Entry) : List EditKey → List EditKey
  | [] => []
  | k :: ks =>
    match e.press k with
    | .ok e' => k :: e'.accepted ks
    | .error _ => e.accepted ks

theorem accepted_induction {P : List EditKey → Entry → Prop} (h : P done e)
    (hstep : ∀ {done e k e'}, P done e → e.press k = .ok e' → P (done ++ [k]) e')
    (ks : List EditKey) : P (done ++ e.accepted ks) (e.pressAll ks) := by
  induction ks generalizing done e with
  | nil => rwa [accepted, List.append_nil]
  | cons k ks ih =>
    rw [accepted, pressAll]
    cases hk : e.press k with
    | error r => exact ih h
    | ok next =>
      have hnext := ih (hstep h hk)
      rwa [List.append_assoc] at hnext

def Records (done : List EditKey) (e : Entry) : Prop :=
  ∃ rs : List (List EditKey), rs.flatten = done ∧ List.Forall₂ Makes rs e.stream

theorem Records.concat (h : Records done e) {t : Token} (ht : Makes [k] t)
    (hs : e'.stream = e.stream ++ [t]) : Records (done ++ [k]) e' := by
  obtain ⟨rs, rfl, hrs⟩ := h
  refine ⟨rs ++ [[k]], by simp, ?_⟩
  rw [hs]
  exact List.rel_append hrs (.cons ht .nil)

theorem Records.extend (h : Records done e) {ts : List Token} {t t' : Token}
    (hs : e.stream = ts ++ [t]) (hs' : e'.stream = ts ++ [t'])
    (ht : ∀ run, Makes run t → Makes (run ++ [k]) t') : Records (done ++ [k]) e' := by
  obtain ⟨rs, rfl, hrs⟩ := h
  rw [hs] at hrs
  have hfront := List.forall₂_take_append rs ts [t] hrs
  have hlast := List.forall₂_drop_append rs ts [t] hrs
  obtain ⟨run, rest, hrun, hrest, hdrop⟩ := List.forall₂_cons_right_iff.1 hlast
  obtain rfl := List.forall₂_nil_right_iff.1 hrest
  refine ⟨rs.take ts.length ++ [run ++ [k]], ?_, ?_⟩
  · conv_rhs => rw [← List.take_append_drop ts.length rs, hdrop]
    simp
  · rw [hs']
    exact List.rel_append hfront (.cons (ht run hrun) .nil)

theorem edit_of_isNumeric (e : Entry) (hk : k.isNumeric = true) :
    (e.edit k).digits = e.digits ++ k.text ∧
      (e.edit k).sign = (if k = .signFlip then e.sign.flip else e.sign) ∧
      (e.edit k).tokens = e.tokens := by
  cases k with
  | digit c => exact ⟨String.push_eq_append c, rfl, rfl⟩
  | signFlip => exact ⟨String.append_empty.symm, rfl, rfl⟩
  | decimalPoint => exact ⟨String.push_eq_append '.', rfl, rfl⟩
  | openBracket => cases hk
  | closeBracket => cases hk
  | operator op => cases hk

theorem Conforms.digit_of_isNumeric (h : e.Conforms) (hk : e.press k = .ok e')
    (hnum : k.isNumeric = true) (hd : e.digits = "") : ∃ c, k = .digit c := by
  have hadmits := (allows_iff h.allowed _).1 (press_eq_ok_iff.1 hk).1
  cases k with
  | digit c => exact ⟨c, rfl⟩
  | signFlip => exact absurd hd hadmits
  | decimalPoint => exact absurd hd hadmits.1
  | openBracket => cases hnum
  | closeBracket => cases hnum
  | operator op => cases hnum

theorem Records.press (h : Records done e) (hc : e.Conforms) (hk : e.press k = .ok e') :
    Records (done ++ [k]) e' := by
  obtain ⟨-, -, rfl⟩ := press_eq_ok_iff.1 hk
  by_cases hnum : k.isNumeric = true
  · obtain ⟨hdigits, hsign, htokens⟩ := edit_of_isNumeric e hnum
    by_cases hd : e.digits = ""
    · obtain ⟨c, rfl⟩ := hc.digit_of_isNumeric hk hnum hd
      have hfirst : Makes [.digit c] (.operand ⟨e.digits.push c, e.sign⟩) := by
        refine .number (fun k hk => absurd hk List.not_mem_nil) ?_ ?_
        · rw [hd, textOf_singleton]
          exact (String.push_eq_append c).trans String.empty_append
        · rw [hc.unsigned hd]
          exact iff_of_false (fun hs => by cases hs) (by decide)
      refine h.concat hfirst ?_
      rw [stream_of_eq hd]
      exact stream_of_ne String.push_ne_empty
    · have hd' : (e.edit k).digits ≠ "" := by
        rw [hdigits]
        exact fun hn => hd (String.append_eq_empty_iff.1 hn).1
      refine h.extend (stream_of_ne hd) (htokens ▸ stream_of_ne hd') fun run hrun => ?_
      exact hrun.concat hnum hdigits hsign
  · cases k with
    | digit c => exact absurd rfl hnum
    | signFlip => exact absurd rfl hnum
    | decimalPoint => exact absurd rfl hnum
    | openBracket => exact h.concat .openBracket (stream_append_finishOperand e _)
    | closeBracket => exact h.concat .closeBracket (stream_append_finishOperand e _)
    | operator op => exact h.concat (.operator op) (stream_append_finishOperand e _)

theorem join_unsigned_stream (e : Entry) :
    String.join (e.stream.map Token.unsigned) =
      String.join (e.tokens.map Token.unsigned) ++ e.digits := by
  by_cases hd : e.digits = ""
  · rw [stream_of_eq hd, hd, String.append_empty]
  · rw [stream_of_ne hd, List.map_append, String.join_append, List.map_singleton, String.join_cons,
      String.join_nil, String.append_empty]
    rfl

/-- An entry is what was typed, whatever was refused on the way. The accepted keys write the text of
its tokens and of the number being typed, in this order and nothing else; they fall into runs that
make these tokens one by one; and the equation is their text with every negative number wrapped. -/
theorem typed_verbatim (ks : List EditKey) :
    let typed := Entry.empty.accepted ks
    let e := Entry.empty.pressAll ks
    textOf typed = String.join (e.tokens.map Token.unsigned) ++ e.digits ∧
      List.Forall₂ Makes (runs typed) e.stream ∧
      e.equation = String.join ((runs typed).map shownRun) := by
  intro typed e
  obtain ⟨hconf, rs, hflat, hmakes⟩ : e.Conforms ∧ Records ([] ++ typed) e :=
    accepted_induction (P := fun done e => e.Conforms ∧ Records done e)
      ⟨conforms_empty, [], rfl, .nil⟩
      (fun h hk => ⟨h.1.press hk, h.2.press h.1 hk⟩) ks
  rw [List.nil_append] at hflat
  have hruns : runs typed = rs := hflat ▸ Makes.runs_flatten hmakes hconf.ordered
  have htext : rs.map textOf = e.stream.map Token.unsigned := Makes.map_eq hmakes Makes.textOf_eq
  have hshown : rs.map shownRun = e.stream.map Token.shown := Makes.map_eq hmakes Makes.shownRun_eq
  refine ⟨?_, hruns ▸ hmakes, ?_⟩
  · rw [← hflat, textOf_flatten, htext, join_unsigned_stream]
  · rw [hruns, hshown, hconf.equation_eq]

theorem typed_verbatim_refused :
    let keys : List EditKey := [.signFlip, .digit '5', .signFlip, .operator .add, .operator .divide,
      .digit '2', .decimalPoint, .digit '5']
    Entry.empty.accepted keys = [.digit '5', .signFlip, .operator .add, .digit '2', .decimalPoint,
        .digit '5'] ∧
      String.join ((Entry.empty.pressAll keys).tokens.map Token.unsigned) ++
        (Entry.empty.pressAll keys).digits = "5+2.5" ∧
      List.Forall₂ Makes [[.digit '5', .signFlip], [.operator .add],
        [.digit '2', .decimalPoint, .digit '5']] (Entry.empty.pressAll keys).stream ∧
      (Entry.empty.pressAll keys).equation = "(-5)+2.5" := by
  intro keys
  have typed : Entry.empty.accepted keys = [.digit '5', .signFlip, .operator .add, .digit '2',
      .decimalPoint, .digit '5'] := by decide
  obtain ⟨text, makes, equation⟩ := typed_verbatim keys
  rw [typed] at text makes equation
  exact ⟨typed, text.symm.trans (by decide), makes, equation.trans (by decide)⟩

end Entry
end PocketCalculator
