import PocketCalculator.Proofs.Session.History

/-! Steps that are refused or ignored leave nothing behind but a message. A session that replays the
others goes through the same entries and ends with the same display, the message apart. -/

namespace PocketCalculator.Session

structure Turn extends Event where
  press : Press
  after : Entry
  deriving DecidableEq

def turn (s : Session) (p : Press) : Turn where
  before := s.entry
  outcome := (s.answer p).outcome
  press := p
  after := (s.next p).entry

def turns (s : Session) : List Press → List Turn
  | [] => []
  | p :: ps => s.turn p :: turns (s.next p) ps

def effective (ts : List Turn) : List Turn := ts.filter fun t => t.isEffective

theorem effective_cons (t : Turn) (ts : List Turn) :
    effective (t :: ts) = if t.isEffective then t :: effective ts else effective ts :=
  List.filter_cons

/-- The session with another panel in front of it. No answer depends on what is shown. -/
def shows (s : Session) (p : Panel) : Session := { s with panel := p }

theorem turn_shows (s : Session) (p : Panel) (q : Press) : (s.shows p).turn q = s.turn q := by
  cases q <;> rfl

theorem next_shows (s : Session) (p : Panel) (q : Press) :
    (s.shows p).next q = (s.next q).shows (p.showAll (s.answer q).changes) := by
  cases q <;> rfl

def quiet (s : Session) : Session := { s with panel := { s.panel with error := none } }

theorem quiet_eq (s : Session) : s.quiet = s.shows { s.panel with error := none } := rfl

theorem turn_quiet (s : Session) (p : Press) : s.quiet.turn p = s.turn p := s.turn_shows _ p

theorem Answers.showAll_quiet {m : Settings} {e : Entry} {step : Step} (h : Answers m e step)
    (he : Event.isEffective ⟨e, step.outcome⟩ = true) (p : Panel) :
    ({ p with error := none } : Panel).showAll step.changes =
      { p.showAll step.changes with error := none } := by
  cases h with
  | accepted hk => cases e.isEmpty <;> rfl
  | refused r => cases he
  | ignored => cases he
  | cleared => rfl
  | evaluated hne hx => rfl

theorem Answers.showAll_of_not_effective {m : Settings} {e : Entry} {step : Step}
    (h : Answers m e step) (he : Event.isEffective ⟨e, step.outcome⟩ = false) (p : Panel) :
    step.entry = e ∧
      ({ p.showAll step.changes with error := none } : Panel) = { p with error := none } := by
  cases h with
  | accepted hk => cases he
  | refused r => exact ⟨rfl, rfl⟩
  | ignored => exact ⟨rfl, rfl⟩
  | cleared => cases he
  | evaluated hne hx => cases he

variable {s : Session} {p : Press}

theorem next_quiet (he : (s.turn p).isEffective = true) : s.quiet.next p = (s.next p).quiet := by
  have hpanel := (s.answers_answer p).showAll_quiet he s.panel
  rw [quiet_eq, next_shows, hpanel]
  rfl

theorem quiet_next (he : (s.turn p).isEffective = false) : (s.next p).quiet = s.quiet := by
  obtain ⟨hentry, hpanel⟩ := (s.answers_answer p).showAll_of_not_effective he s.panel
  rw [next, quiet, quiet, hpanel, hentry]

theorem replay_quiet (s : Session) (ps : List Press) :
    s.quiet.turns ((effective (s.turns ps)).map Turn.press) = effective (s.turns ps) ∧
      s.quiet.run ((effective (s.turns ps)).map Turn.press) = (s.run ps).quiet := by
  induction ps generalizing s with
  | nil => exact ⟨rfl, rfl⟩
  | cons p ps ih =>
    obtain ⟨hturns, hrun⟩ := ih (s.next p)
    rw [turns, run_cons, effective_cons]
    -- A turn without effect is not pressed again, and without its message it left no trace.
    cases he : (s.turn p).isEffective with
    | true =>
      have hpress : (s.turn p).press = p := rfl
      rw [if_pos rfl, List.map_cons, hpress, turns, run_cons, turn_quiet, next_quiet he, hturns]
      exact ⟨rfl, hrun⟩
    | false =>
      rw [if_neg Bool.false_ne_true]
      rw [quiet_next he] at hturns hrun
      exact ⟨hturns, hrun⟩

/-- What was refused or ignored can be struck out of a session. The other presses, pressed anew,
are answered as they were and leave the same entries, and in the end the same equation and the same
result are shown, without a message. -/
theorem replay_effective (m : Settings) (ps : List Press) :
    let kept := effective ((start m).turns ps)
    let original := (start m).run ps
    let replayed := (start m).run (kept.map Turn.press)
    (start m).turns (kept.map Turn.press) = kept ∧ replayed.entry = original.entry ∧
      replayed.panel.equation = original.panel.equation ∧
      replayed.panel.result = original.panel.result ∧ replayed.panel.error = none := by
  intro kept original replayed
  obtain ⟨hturns, hrun⟩ := replay_quiet (start m) ps
  have hreplayed : replayed = original.quiet := hrun
  rw [hreplayed]
  exact ⟨hturns, rfl, rfl, rfl, rfl⟩

theorem replay_effective_quotient :
    let presses : List Press :=
      [.button ⟨.digit, "7"⟩, .button ⟨.operator, "÷"⟩, .button ⟨.action, "="⟩,
        .button ⟨.operator, "×"⟩, .button ⟨.digit, "2"⟩, .button ⟨.action, "="⟩,
        .button ⟨.action, "="⟩, .button ⟨.operator, "×"⟩]
    let kept : List Press :=
      [.button ⟨.digit, "7"⟩, .button ⟨.operator, "÷"⟩, .button ⟨.digit, "2"⟩,
        .button ⟨.action, "="⟩]
    (effective ((start .standard).turns presses)).map Turn.press = kept ∧
      ((start .standard).run presses).panel =
        ⟨some "an operator cannot be entered now", "7÷2", some "3.50"⟩ ∧
      ((start .standard).run kept).panel.equation = "7÷2" ∧
      ((start .standard).run kept).panel.result = some "3.50" ∧
      ((start .standard).run kept).panel.error = none := by
  intro presses kept
  have struck : (effective ((start .standard).turns presses)).map Turn.press = kept := by
    decide +kernel
  have original : ((start .standard).run presses).panel =
      ⟨some "an operator cannot be entered now", "7÷2", some "3.50"⟩ := by decide +kernel
  obtain ⟨-, -, equation, result, error⟩ := replay_effective .standard presses
  rw [struck, original] at equation result
  rw [struck] at error
  exact ⟨struck, original, equation, result, error⟩

end PocketCalculator.Session
