import PocketCalculator.Proofs.Document.Settings
import PocketCalculator.Proofs.Entry.Arithmetic
import PocketCalculator.Proofs.Expression.Values
import PocketCalculator.Proofs.Number.Places
import PocketCalculator.Proofs.Session.Step

/-! What a user gets to see under settings that come from a document: messages that say something,
and results that are numbers with the places that were asked for. -/

namespace PocketCalculator.Session

def Worded (m : Settings) (p : Panel) : Prop :=
  ∀ message, p.error = some message → ∃ r, message = m.messages.text r

variable {m : Settings} {e : Entry} {step : Step} {p : Panel}

theorem Answers.worded (h : Answers m e step) (hp : Worded m p) :
    Worded m (p.showAll step.changes) := by
  cases h with
  | accepted hk =>
    cases e.isEmpty with
    | true => exact fun message hm => nomatch hm
    | false => exact fun message hm => nomatch hm
  | refused r => exact fun message hm => ⟨r, (Option.some.inj hm).symm⟩
  | ignored => exact hp
  | cleared => exact fun message hm => nomatch hm
  | evaluated hne hx => exact fun message hm => nomatch hm

theorem worded_run {s : Session} (h : Worded s.settings s.panel) (ps : List Press) :
    Worded s.settings (s.run ps).panel := by
  induction ps generalizing s with
  | nil => exact h
  | cons q ps ih =>
    have hnext : Worded (s.next q).settings (s.next q).panel := (s.answers_answer q).worded h
    exact ih hnext

theorem Answers.of_evaluated (h : Answers m e step) {x : Float} {text : String}
    (ho : step.outcome = .ok (.evaluated x text)) :
    e.evaluate = .ok x ∧ text = resultText x m.fractionDigits.toNat := by
  cases h with
  | accepted hk => cases ho
  | refused r => cases ho
  | ignored => cases ho
  | cleared => cases ho
  | evaluated hne hx =>
    cases ho
    exact ⟨hx, rfl⟩

/-- Under settings from a document no message is blank, however a session runs. Every value that it
comes to is finite. A whole number is written without a point and any other with as many digits
after it as the settings ask for, at most ten. -/
theorem shown_of_ofDocument {text : String} {m : Settings}
    (h : Settings.ofDocument text = .ok m) (ps : List Press) :
    let s := (start m).run ps
    (∀ message, s.panel.error = some message → ∃ c ∈ message.toList, isWhiteSpace c = false) ∧
      ∀ p x shown, (s.answer p).outcome = .ok (.evaluated x shown) →
        x.isFinite = true ∧ m.fractionDigits.toNat ≤ 10 ∧
          ((Double.ofFloat x).IsIntegral → Numeral.HasPlaces 0 shown.toList) ∧
          (¬ (Double.ofFloat x).IsIntegral →
            Numeral.HasPlaces m.fractionDigits.toNat shown.toList) := by
  intro s
  have hvalid : m.Valid := Settings.valid_of_ofDocument h
  have hsettings : s.settings = m := settings_run _ ps
  have hworded : Worded m s.panel :=
    worded_run (s := start m) (fun message hm => nomatch hm) ps
  refine ⟨fun message hm => ?_, fun p x shown ho => ?_⟩
  · obtain ⟨r, rfl⟩ := hworded message hm
    exact hvalid.exists_not_isWhiteSpace r
  · have hanswer := s.answers_answer p
    rw [hsettings] at hanswer
    obtain ⟨hx, rfl⟩ := hanswer.of_evaluated ho
    have hfinite : x.isFinite = true :=
      ReversePolish.isFinite_of_evaluate (Entry.evaluate_eq_ok_iff.1 hx).2
    exact ⟨hfinite, hvalid.short, hasPlaces_resultText hfinite _⟩

theorem shown_of_ofDocument_three :
    let m : Settings := { messages := { operatorNotAllowed := "no operator" }, fractionDigits := 3 }
    let document : Json := .object [(some "fraction_digits", .natural 3),
      (some "messages", .object [(some "operator_not_allowed", .named "no operator")])]
    let typed : List Press := [.key (.edit (.operator .add)), .key (.edit (.digit '7')),
      .button ⟨.operator, "÷"⟩, .button ⟨.digit, "2"⟩]
    Settings.ofDocument document.render = .ok m ∧
      ((start m).run (typed.take 1)).panel.error = some "no operator" ∧
      (((start m).run typed).answer (.button ⟨.action, "="⟩)).outcome =
        .ok (.evaluated 3.5 "3.500") ∧
      Float.isFinite 3.5 = true ∧ ¬ (Double.ofFloat 3.5).IsIntegral ∧
      Numeral.HasPlaces 3 "3.500".toList := by
  intro m document typed
  have hdocument : Settings.ofDocument document.render = .ok m := by
    rw [Settings.ofDocument_of_ofJson? (s := m) (Json.parse?_render document) rfl]
    decide
  have hvalue : (((start m).run typed).answer (.button ⟨.action, "="⟩)).outcome =
      .ok (.evaluated 3.5 "3.500") := by decide +kernel
  have hfraction : ¬ (Double.ofFloat 3.5).IsIntegral := by
    have hparts : Double.ofFloat 3.5 = .finite false 7881299347898368 (-51) := by decide +kernel
    rw [hparts, Double.isIntegral_finite_iff]
    decide
  obtain ⟨-, hshown⟩ := shown_of_ofDocument hdocument typed
  obtain ⟨hfinite, -, -, hplaces⟩ := hshown _ _ _ hvalue
  exact ⟨hdocument, by decide, hvalue, hfinite, hfraction, hplaces hfraction⟩

end PocketCalculator.Session
