import PocketCalculator.Session.Basic
import Mathlib.Data.List.Basic

/-! The labels of the keypad. A button has a key just where the table of labels names its group, so
that a label belongs to one group at most, and a session never passes over a button that was found
by its label unless there is nothing to evaluate. -/

namespace PocketCalculator

theorem Operator.isSome_ofSymbol?_iff {s : String} :
    (ofSymbol? s).isSome = true ↔ s ∈ all.flatMap symbols := by
  simp only [Option.isSome_iff_exists, ofSymbol?_eq_some_iff, List.mem_flatMap]
  exact exists_congr fun op => (and_iff_right op.mem_all).symm

namespace Button
variable {label : String} {b : Button} {g g' : Group} {k : Key}

def Group.labels : Group → List String
  | digit => ["0", "1", "2", "3", "4", "5", "6", "7", "8", "9"]
  | modifier => [",", ".", "±"]
  | operator => ["(", ")"] ++ Operator.all.flatMap Operator.symbols
  | action => ["C", "="]

theorem singleton_mem_labels_digit {c : Char} (hc : c.isDigit = true) :
    String.singleton c ∈ Group.digit.labels := by
  -- The ten digits stand in a row, and `0` is the code point 48.
  have hall : ∀ n ∈ List.range' 48 10, String.singleton (Char.ofNat n) ∈ Group.digit.labels := by
    decide
  have hbounds : 48 ≤ c.toNat ∧ c.toNat ≤ 57 := by
    simpa [Char.isDigit, UInt32.le_iff_toNat_le] using hc
  rw [← Char.ofNat_toNat c]
  exact hall _ (List.mem_range'_1.2 ⟨hbounds.1, by omega⟩)

theorem isSome_digitOf?_iff : (digitOf? label).isSome = true ↔ label ∈ Group.digit.labels := by
  constructor
  · intro h
    unfold digitOf? at h
    split at h
    · rename_i c hc
      split at h
      · have hlabel : label = String.singleton c :=
          String.toList_inj.1 (hc.trans (String.toList_singleton c).symm)
        exact hlabel ▸ singleton_mem_labels_digit ‹_›
      · cases h
    · cases h
  · have hall : ∀ l ∈ Group.digit.labels, (digitOf? l).isSome = true := by decide
    exact hall label

theorem isSome_key?_iff : (key? ⟨g, label⟩).isSome = true ↔ label ∈ g.labels := by
  cases g with
  | digit =>
    rw [← isSome_digitOf?_iff]
    exact Bool.eq_iff_iff.1 Option.isSome_map
  | modifier =>
    simp only [key?, Group.labels, List.mem_cons, List.not_mem_nil, or_false, ← or_assoc]
    split_ifs <;> simp_all
  | operator =>
    simp only [key?, Group.labels, List.cons_append, List.nil_append, List.mem_cons,
      ← Operator.isSome_ofSymbol?_iff]
    split_ifs <;> simp_all
  | action =>
    simp only [key?, Group.labels, List.mem_cons, List.not_mem_nil, or_false]
    split_ifs <;> simp_all

theorem groupOfLabel?_eq_some_iff : groupOfLabel? label = some g ↔ label ∈ g.labels := by
  constructor
  · intro h
    unfold groupOfLabel? at h
    split_ifs at h with hd hm ho ha hs
    · exact Option.some.inj h ▸ hd
    · exact Option.some.inj h ▸ hm
    · exact Option.some.inj h ▸ List.mem_append_left _ ho
    · exact Option.some.inj h ▸ ha
    · exact Option.some.inj h ▸ List.mem_append_right _ (Operator.isSome_ofSymbol?_iff.1 hs)
  · have hall : ∀ g ∈ Group.all, ∀ l ∈ g.labels, groupOfLabel? l = some g := by decide
    exact hall g g.mem_all label

theorem eq_of_mem_labels (h : label ∈ g.labels) (h' : label ∈ g'.labels) : g = g' :=
  Option.some.inj ((groupOfLabel?_eq_some_iff.2 h).symm.trans (groupOfLabel?_eq_some_iff.2 h'))

theorem exists_key_iff : (∃ k, b.key = .ok k) ↔ b.symbol ∈ b.group.labels := by
  rw [← isSome_key?_iff, Option.isSome_iff_exists, key]
  cases b.key? <;> simp

theorem ofLabel_eq_ok_iff :
    ofLabel label = .ok b ↔ b.symbol = label ∧ b.symbol ∈ b.group.labels := by
  rw [ofLabel]
  cases hg : groupOfLabel? label with
  | none =>
    refine iff_of_false (fun h => by cases h) ?_
    rintro ⟨rfl, hb⟩
    rw [groupOfLabel?_eq_some_iff.2 hb] at hg
    cases hg
  | some g =>
    have hmem := groupOfLabel?_eq_some_iff.1 hg
    constructor
    · intro h
      cases h
      exact ⟨rfl, hmem⟩
    · rintro ⟨rfl, hb⟩
      rw [eq_of_mem_labels hmem hb]

theorem key?_eq_evaluate_iff : b.key? = some (.command .evaluate) ↔ b = ⟨.action, "="⟩ := by
  obtain ⟨g, s⟩ := b
  cases g with
  | digit => simp [key?]
  | modifier =>
    simp only [key?]
    split_ifs <;> simp
  | operator =>
    simp only [key?]
    split_ifs <;> simp
  | action =>
    simp only [key?]
    split_ifs <;> simp_all

end Button

namespace Session
variable {m : Settings} {e : Entry} {k : Key}

theorem outcome_edit_ne_ignored (k : EditKey) : (edit m e k).outcome ≠ .ok .ignored := by
  rw [edit]
  cases e.press k <;> simp [refuse]

theorem outcome_evaluate_eq_ignored_iff :
    (evaluate m e).outcome = .ok .ignored ↔ e.isEmpty = true := by
  rw [evaluate]
  split
  · simp [*]
  · cases e.evaluate <;> simp [refuse, *]

theorem outcome_pressKey_eq_ignored_iff :
    (pressKey m e k).outcome = .ok .ignored ↔
      k = .command .evaluate ∧ e.isEmpty = true := by
  cases k with
  | edit k => simpa [pressKey] using outcome_edit_ne_ignored k
  | command c =>
    cases c with
    | clear => simp [pressKey, clear]
    | evaluate => simpa [pressKey] using outcome_evaluate_eq_ignored_iff

end Session

/-- A label finds the buttons that bear it and have a key, and there is no more than one for it. A
session ignores the button that was found only if it asks for the value of an empty entry. -/
theorem Button.ofLabel_resolves (label : String) :
    (∀ b, ofLabel label = .ok b ↔ b.symbol = label ∧ ∃ k, b.key = .ok k) ∧
      (∀ g g' k k', key ⟨g, label⟩ = .ok k → key ⟨g', label⟩ = .ok k' → g = g') ∧
      ∀ b, ofLabel label = .ok b → ∀ s : Session,
        (s.answer (.button b)).outcome = .ok .ignored ↔ label = "=" ∧ s.entry.isEmpty = true := by
  refine ⟨fun b => ?_, fun g g' k k' hk hk' => ?_, fun b hb s => ?_⟩
  · rw [ofLabel_eq_ok_iff, exists_key_iff]
  · exact eq_of_mem_labels (exists_key_iff.1 ⟨k, hk⟩) (exists_key_iff.1 ⟨k', hk'⟩)
  · obtain ⟨rfl, hmem⟩ := ofLabel_eq_ok_iff.1 hb
    obtain ⟨k, hk⟩ := Option.isSome_iff_exists.1 (isSome_key?_iff.2 hmem)
    have hanswer : s.answer (.button b) = Session.pressKey s.settings s.entry k := by
      rw [Session.answer, Session.press, hk]
    have hevaluate : k = .command .evaluate ↔ b.symbol = "=" := by
      rw [← Option.some_inj, ← hk, key?_eq_evaluate_iff]
      refine ⟨congrArg symbol, fun hs => ?_⟩
      have hgroup : b.group = .action :=
        eq_of_mem_labels hmem (hs ▸ List.mem_cons_of_mem _ List.mem_cons_self)
      exact congr (congrArg Button.mk hgroup) hs
    rw [hanswer, Session.outcome_pressKey_eq_ignored_iff, hevaluate]

theorem Button.ofLabel_resolves_alias :
    key ⟨.operator, "*"⟩ = .ok (.edit (.operator .multiply)) ∧
      ofLabel "*" = .ok ⟨.operator, "*"⟩ ∧
      ((Session.start .standard).answer (.button ⟨.operator, "*"⟩)).outcome ≠ .ok .ignored ∧
      ((Session.start .standard).answer (.button ⟨.action, "="⟩)).outcome = .ok .ignored := by
  have multiply : key ⟨.operator, "*"⟩ = .ok (.edit (.operator .multiply)) := by decide
  have found : ofLabel "*" = .ok ⟨.operator, "*"⟩ :=
    ((ofLabel_resolves "*").1 _).2 ⟨rfl, _, multiply⟩
  have equals : ofLabel "=" = .ok ⟨.action, "="⟩ := by decide
  refine ⟨multiply, found, fun h => ?_, ?_⟩
  · exact absurd (((ofLabel_resolves "*").2.2 _ found _).1 h).1 (by decide)
  · exact ((ofLabel_resolves "=").2.2 _ equals _).2 ⟨rfl, rfl⟩

end PocketCalculator
