import PocketCalculator.Proofs.Session.Step

/-! What the panel shows follows from the present entry and from what has happened:
`Session.expected` says how, and every run of a session keeps to it. Of the past it takes the last
event that was noticed, that is not ignored, and the last effective one, which was neither refused
nor ignored. -/

namespace PocketCalculator.Session

structure Event where
  before : Entry
  outcome : Except Refusal Outcome
  deriving DecidableEq

def history (s : Session) : List Press → List Event
  | [] => []
  | p :: ps => ⟨s.entry, (s.answer p).outcome⟩ :: history (s.next p) ps

def lastNoticed (es : List Event) : Option Event :=
  (es.filter fun ev => ev.outcome ≠ .ok .ignored).getLast?

def Event.isEffective (ev : Event) : Bool :=
  match ev.outcome with
  | .error _ | .ok .ignored => false
  | .ok _ => true

def lastEffective (es : List Event) : Option Event := (es.filter Event.isEffective).getLast?

/-- The panel that goes with an entry and a history. An expression shows itself alone. Where there
is none, a result stays beside its equation unless it was cleared, and a refusal stays until
something else is noticed. -/
def expected (m : Settings) (e : Entry) (es : List Event) : Panel where
  equation :=
    if e.isEmpty then
      match lastEffective es with
      | some ⟨before, .ok (.evaluated _ _)⟩ => before.equation
      | _ => ""
    else e.equation
  result :=
    if e.isEmpty then
      match lastEffective es with
      | some ⟨_, .ok (.evaluated _ text)⟩ => some text
      | _ => none
    else none
  error :=
    match lastNoticed es with
    | some ⟨_, .error r⟩ => some (m.messages.text r)
    | _ => none

theorem run_concat (s : Session) (ps : List Press) (p : Press) :
    s.run (ps ++ [p]) = (s.run ps).next p := by
  rw [run_append, run_cons, run_nil]

theorem history_concat (s : Session) (ps : List Press) (p : Press) :
    s.history (ps ++ [p]) = s.history ps ++
      [⟨(s.run ps).entry, ((s.run ps).answer p).outcome⟩] := by
  induction ps generalizing s with
  | nil => rfl
  | cons q ps ih => rw [List.cons_append, history, ih, history, run_cons, List.cons_append]

theorem lastNoticed_concat (es : List Event) (ev : Event) :
    lastNoticed (es ++ [ev]) = if ev.outcome = .ok .ignored then lastNoticed es else some ev := by
  rw [lastNoticed, List.filter_append]
  split
  · rw [List.filter_cons_of_neg (by simpa), List.filter_nil, List.append_nil, lastNoticed]
  · rw [List.filter_cons_of_pos (by simpa), List.filter_nil, List.getLast?_concat]

theorem lastEffective_concat (es : List Event) (ev : Event) :
    lastEffective (es ++ [ev]) = if ev.isEffective then some ev else lastEffective es := by
  rw [lastEffective, List.filter_append]
  split
  · rename_i he
    rw [List.filter_cons_of_pos he, List.filter_nil, List.getLast?_concat]
  · rename_i he
    rw [List.filter_cons_of_neg he, List.filter_nil, List.append_nil, lastEffective]

theorem Answers.showAll_expected {m : Settings} {e : Entry} {step : Step} (h : Answers m e step)
    (ha : e.allowed = e.derivedAllowed) (es : List Event) :
    (expected m e es).showAll step.changes = expected m step.entry (es ++ [⟨e, step.outcome⟩]) := by
  cases h with
  | accepted hk =>
    have hne := Entry.isEmpty_of_press ha hk
    cases he : e.isEmpty <;> simp [expected, he, hne, lastNoticed_concat, Panel.apply]
  | refused r =>
    simp [expected, refuse, lastNoticed_concat, lastEffective_concat, Event.isEffective,
      Panel.apply]
  | ignored => simp [expected, lastNoticed_concat, lastEffective_concat, Event.isEffective]
  | cleared =>
    have he : Entry.empty.isEmpty = true := rfl
    rw [clear, Panel.showAll_wipe]
    simp [expected, he, lastNoticed_concat, lastEffective_concat, Event.isEffective, Panel.blank]
  | evaluated hne hx =>
    have he : Entry.empty.isEmpty = true := rfl
    simp [expected, he, hne, lastNoticed_concat, lastEffective_concat, Event.isEffective,
      Panel.apply]

/-- After every run the panel shows what goes with the entry and the history. -/
theorem panel_run (m : Settings) (ps : List Press) :
    ((start m).run ps).panel = expected m ((start m).run ps).entry ((start m).history ps) := by
  induction ps using List.reverseRecOn with
  | nil => rfl
  | append_singleton ps p ih =>
    have hm : ((start m).run ps).settings = m := settings_run _ ps
    have hstep := ((start m).run ps).answers_answer p
    rw [hm] at hstep
    have ha := (reached_run (s := start m) .empty ps).conforms.allowed
    rw [run_concat, history_concat, next]
    show ((start m).run ps).panel.showAll _ = _
    rw [ih]
    exact hstep.showAll_expected ha _

theorem panel_run_result_and_refusal :
    let presses : List Press :=
      [.button ⟨.digit, "7"⟩, .button ⟨.operator, "÷"⟩, .button ⟨.digit, "2"⟩,
        .button ⟨.action, "="⟩, .button ⟨.operator, "×"⟩, .button ⟨.action, "="⟩]
    ((start .standard).history presses).map Event.outcome =
        [.ok .accepted, .ok .accepted, .ok .accepted, .ok (.evaluated 3.5 "3.50"),
          .error .operatorNotAllowed, .ok .ignored] ∧
      ((start .standard).run presses).panel =
        ⟨some "an operator cannot be entered now", "7÷2", some "3.50"⟩ := by
  intro presses
  have shown := panel_run .standard presses
  exact ⟨by decide +kernel, shown.trans (by decide +kernel)⟩

end PocketCalculator.Session
