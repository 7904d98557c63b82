import PocketCalculator.Proofs.Entry.Conforms
import PocketCalculator.Session.Basic

/-! The five ways in which a session answers a press, and what they keep: the entry is always one
that keys alone bring about, and an accepted key never leaves it empty. -/

namespace PocketCalculator

theorem Entry.isEmpty_of_press {e e' : Entry} {k : EditKey} (ha : e.allowed = e.derivedAllowed)
    (hk : e.press k = .ok e') : e'.isEmpty = false := by
  obtain ⟨hallow, -, rfl⟩ := press_eq_ok_iff.1 hk
  rw [isEmpty, decide_eq_false_iff_not]
  rintro ⟨ht, hd⟩
  have append (t : Token) : (e.finishOperand.append t).refresh.tokens ≠ [] :=
    List.concat_ne_nil t e.finishOperand.tokens
  cases k with
  | digit c => exact String.push_ne_empty hd
  | signFlip => exact (allows_iff ha _).1 hallow hd
  | decimalPoint => exact String.push_ne_empty hd
  | openBracket => exact append _ ht
  | closeBracket => exact append _ ht
  | operator op => exact append _ ht

namespace Session

inductive Answers (m : Settings) (e : Entry) : Step → Prop where
  | accepted {k : EditKey} {e' : Entry} : e.press k = .ok e' → Answers m e
      ⟨.ok .accepted, (if e.isEmpty then [.result none] else []) ++
        [.equation e'.equation, .error none], e'⟩
  | refused (r : Refusal) : Answers m e (refuse m e r)
  | ignored : Answers m e ⟨.ok .ignored, [], e⟩
  | cleared : Answers m e clear
  | evaluated {x : Float} : e.isEmpty = false → e.evaluate = .ok x → Answers m e
      ⟨.ok (.evaluated x (resultText x m.fractionDigits.toNat)),
        [.error none, .result (some (resultText x m.fractionDigits.toNat))], Entry.empty⟩

theorem answers_edit (m : Settings) (e : Entry) (k : EditKey) : Answers m e (edit m e k) := by
  rw [edit]
  cases hk : e.press k with
  | error r => exact .refused r
  | ok e' => exact .accepted hk

theorem answers_evaluate (m : Settings) (e : Entry) : Answers m e (evaluate m e) := by
  rw [evaluate]
  cases he : e.isEmpty with
  | true => exact .ignored
  | false =>
    cases hx : e.evaluate with
    | error r => exact .refused r
    | ok x => exact .evaluated he hx

theorem answers_pressKey (m : Settings) (e : Entry) (k : Key) : Answers m e (pressKey m e k) := by
  cases k with
  | edit k => exact answers_edit m e k
  | command c =>
    cases c with
    | clear => exact .cleared
    | evaluate => exact answers_evaluate m e

theorem answers_answer (s : Session) (p : Press) : Answers s.settings s.entry (s.answer p) := by
  cases p with
  | key k => exact answers_pressKey s.settings s.entry k
  | button b =>
    rw [answer, press]
    cases b.key? with
    | some k => exact answers_pressKey s.settings s.entry k
    | none => exact .ignored

theorem Answers.reached {m : Settings} {e : Entry} {step : Step} (h : Answers m e step)
    (he : e.Reached) : step.entry.Reached := by
  cases h with
  | accepted hk => exact he.press hk
  | refused r => exact he
  | ignored => exact he
  | cleared => exact .empty
  | evaluated => exact .empty

theorem settings_run (s : Session) (ps : List Press) : (s.run ps).settings = s.settings := by
  induction ps generalizing s with
  | nil => rfl
  | cons p ps ih => rw [run_cons, ih, next]

theorem reached_run {s : Session} (h : s.entry.Reached) (ps : List Press) :
    (s.run ps).entry.Reached := by
  induction ps generalizing s with
  | nil => exact h
  | cons p ps ih => exact ih ((s.answers_answer p).reached h)

end Session
end PocketCalculator
