import PocketCalculator.Proofs.Session.Replay

/-! After a clear and after an evaluation a session starts over. What an evaluation leaves on the
panel stays until the panel is repainted, by the first key that is accepted or by a clear. -/

namespace PocketCalculator.Session

theorem turns_shows (s : Session) (p : Panel) (qs : List Press) :
    (s.shows p).turns qs = s.turns qs := by
  induction qs generalizing s p with
  | nil => rfl
  | cons q qs ih => rw [turns, turns, turn_shows, next_shows, ih]

def Event.repaints (ev : Event) : Bool :=
  match ev.outcome with
  | .ok .accepted | .ok .cleared => true
  | _ => false

theorem Event.repaints_iff {ev : Event} :
    ev.repaints = true ↔ ev.outcome = .ok .accepted ∨ ev.outcome = .ok .cleared := by
  obtain ⟨e, outcome⟩ := ev
  cases outcome with
  | error r => simp [repaints]
  | ok o => cases o <;> simp [repaints]

def Restarts (outcome : Except Refusal Outcome) : Prop :=
  outcome = .ok .cleared ∨ ∃ x text, outcome = .ok (.evaluated x text)

variable {m : Settings} {e : Entry} {step : Step} {s : Session}

theorem Answers.of_restarts (h : Answers m e step) (hr : Restarts step.outcome) :
    step.entry = Entry.empty ∧ ∀ p : Panel, (p.showAll step.changes).error = none := by
  cases h with
  | accepted hk => simp [Restarts] at hr
  | refused r => simp [Restarts, refuse] at hr
  | ignored => simp [Restarts] at hr
  | cleared => exact ⟨rfl, fun p => rfl⟩
  | evaluated hne hx => exact ⟨rfl, fun p => rfl⟩

theorem Answers.showAll_of_cleared (h : Answers m e step) (hc : step.outcome = .ok .cleared)
    (p : Panel) : p.showAll step.changes = Panel.blank := by
  cases h with
  | cleared => exact p.showAll_wipe
  | accepted hk => cases hc
  | refused r => cases hc
  | ignored => cases hc
  | evaluated hne hx => cases hc

theorem Answers.showAll_of_repaints (h : Answers m e step) (he : e.isEmpty = true)
    (hr : Event.repaints ⟨e, step.outcome⟩ = true) (p q : Panel) :
    p.showAll step.changes = q.showAll step.changes := by
  cases h with
  | accepted hk =>
    rw [he]
    rfl
  | refused r => cases hr
  | ignored => cases hr
  | cleared => rfl
  | evaluated hne hx => cases hr

theorem Answers.showAll_of_not_repaints (h : Answers m e step) (he : e.isEmpty = true)
    (hr : Event.repaints ⟨e, step.outcome⟩ = false) {p q : Panel} (hpq : p.error = q.error) :
    step.entry = e ∧
      p.showAll step.changes = { p with error := (q.showAll step.changes).error } := by
  cases h with
  | accepted hk => cases hr
  | refused r => exact ⟨rfl, rfl⟩
  | ignored =>
    refine ⟨rfl, ?_⟩
    rw [Panel.showAll_nil, Panel.showAll_nil, ← hpq]
  | cleared => cases hr
  | evaluated hne hx =>
    rw [he] at hne
    cases hne

theorem run_shows (he : s.entry.isEmpty = true) {p : Panel} (hp : p.error = s.panel.error)
    (qs : List Press) :
    (s.shows p).run qs =
      if (s.turns qs).any fun t => t.repaints then s.run qs
      else (s.run qs).shows { p with error := (s.run qs).panel.error } := by
  induction qs generalizing s p with
  | nil =>
    rw [run_nil, run_nil, ← hp]
    rfl
  | cons q qs ih =>
    have hanswer := s.answers_answer q
    rw [turns, List.any_cons, run_cons, run_cons, next_shows]
    cases hr : (s.turn q).repaints with
    | true =>
      rw [hanswer.showAll_of_repaints he hr p s.panel, Bool.true_or, if_pos rfl]
      rfl
    | false =>
      obtain ⟨hentry, hpanel⟩ := hanswer.showAll_of_not_repaints he hr hp
      have hnext : (s.next q).entry.isEmpty = true := (congrArg Entry.isEmpty hentry).trans he
      rw [hpanel, Bool.false_or]
      exact ih hnext rfl

/-- A session that has just been cleared or has just evaluated behaves like a new one: whatever is
pressed is answered alike and leaves the same entries. After a clear the panels agree all along.
After an evaluation they agree from the first key that is accepted or the next clear; until then
only the message is shared, and equation and result stay as they were. As a continuation may be cut
off anywhere, this is said of the panel after each of its steps. -/
theorem run_of_restarts (m : Settings) (ps : List Press) (p : Press)
    (h : Restarts (((start m).run ps).answer p).outcome) (qs : List Press) :
    let past := (start m).run (ps ++ [p])
    let repainted := ∃ t ∈ (start m).turns qs, t.outcome = .ok .accepted ∨ t.outcome = .ok .cleared
    past.turns qs = (start m).turns qs ∧
      ((((start m).run ps).answer p).outcome = .ok .cleared → past.run qs = (start m).run qs) ∧
      (repainted → past.run qs = (start m).run qs) ∧
      (¬ repainted →
        (past.run qs).panel = { past.panel with error := ((start m).run qs).panel.error }) := by
  intro past repainted
  have hanswer := ((start m).run ps).answers_answer p
  obtain ⟨hentry, herror⟩ := hanswer.of_restarts h
  have hpast : past = ((start m).run ps).next p := run_concat _ ps p
  have hsettings : past.settings = m := settings_run _ _
  have hshows : past = (start m).shows past.panel := by
    have hempty : past.entry = Entry.empty := by rw [hpast]; exact hentry
    rw [start, shows, ← hsettings, ← hempty]
  have hnone : past.panel.error = none := by
    rw [hpast]
    exact herror _
  have hany : (((start m).turns qs).any fun t => t.repaints) = true ↔ repainted := by
    simp only [List.any_eq_true, Event.repaints_iff]
    rfl
  have hrun : past.run qs = _ :=
    (congrArg (run · qs) hshows).trans (run_shows (s := start m) rfl hnone qs)
  refine ⟨by rw [hshows, turns_shows], fun hc => ?_, fun hr => ?_, fun hr => ?_⟩
  · have hblank : past.panel = Panel.blank := by
      rw [hpast]
      exact hanswer.showAll_of_cleared hc _
    rw [hshows, hblank]
    rfl
  · rw [hrun, if_pos (hany.2 hr)]
  · rw [hrun, if_neg (mt hany.1 hr)]
    rfl

theorem run_of_restarts_quotient :
    let quotient : List Press :=
      [.key (.edit (.digit '7')), .button ⟨.operator, "÷"⟩, .button ⟨.digit, "2"⟩]
    let equals : Press := .button ⟨.action, "="⟩
    let times : Press := .button ⟨.operator, "×"⟩
    let past := (start .standard).run (quotient ++ [equals])
    Restarts (((start .standard).run quotient).answer equals).outcome ∧
      past.panel = ⟨none, "7÷2", some "3.50"⟩ ∧
      (past.run [times, equals]).panel =
        ⟨some "an operator cannot be entered now", "7÷2", some "3.50"⟩ ∧
      past.run [times, equals, .button ⟨.digit, "5"⟩] =
        (start .standard).run [times, equals, .button ⟨.digit, "5"⟩] := by
  intro quotient equals times past
  have restarts : Restarts (((start .standard).run quotient).answer equals).outcome :=
    .inr ⟨3.5, "3.50", by decide +kernel⟩
  have shown : past.panel = ⟨none, "7÷2", some "3.50"⟩ := by decide +kernel
  refine ⟨restarts, shown, ?_, ?_⟩
  · obtain ⟨-, -, -, hkept⟩ := run_of_restarts .standard quotient equals restarts [times, equals]
    have hpanel := hkept (by decide)
    rw [hpanel, shown]
    decide
  · obtain ⟨-, -, hrepainted, -⟩ := run_of_restarts .standard quotient equals restarts
      [times, equals, .button ⟨.digit, "5"⟩]
    exact hrepainted (by decide)

end PocketCalculator.Session
