import PocketCalculator.Expression.Evaluation

/-! The stack of values while an expression in reverse Polish order is evaluated: how a text goes
onto it, that nothing on it is infinite, and which texts are to blame for a fault. -/

namespace PocketCalculator

theorem Operator.evaluate_error_cases {op : Operator} {text : String} {a b : Float} {f : Fault}
    (h : op.evaluate text a b = .error f) : f = .divisionByZero ∨ f = .nonFiniteResult text := by
  unfold evaluate at h
  split at h
  · cases h
    exact .inl rfl
  · split at h
    · cases h
    · cases h
      exact .inr rfl

namespace ReversePolish

variable {values values' : List Float} {text : String} {texts : List String}

theorem push_cases (h : push values text = .ok values') :
    text = "" ∧ values' = values ∨
      (∃ x, number? text = some x ∧ values' = x :: values) ∨
      ∃ op a b x rest, Operator.ofSymbol? text = some op ∧ values = b :: a :: rest ∧
        op.evaluate text a b = .ok x ∧ values' = x :: rest := by
  unfold push at h
  split at h
  · cases h
    exact .inl ⟨‹_›, rfl⟩
  · split at h
    · cases h
      exact .inr (.inl ⟨_, ‹_›, rfl⟩)
    · split at h
      · cases h
      · rename_i op hop
        split at h
        · rename_i b a rest
          cases he : op.evaluate text a b with
          | error f =>
            rw [he] at h
            cases h
          | ok x =>
            rw [he] at h
            cases h
            exact .inr (.inr ⟨op, a, b, x, rest, hop, rfl, he, rfl⟩)
        · cases h

theorem pushAll_cons_eq_ok_iff :
    pushAll values (text :: texts) = .ok values' ↔
      ∃ next, push values text = .ok next ∧ pushAll next texts = .ok values' := by
  rw [pushAll]
  cases push values text with
  | error f => simp [Except.bind]
  | ok next => simp [Except.bind]

theorem isFinite_of_push (hv : ∀ x ∈ values, x.isFinite = true)
    (h : push values text = .ok values') : ∀ x ∈ values', x.isFinite = true := by
  rcases push_cases h with ⟨-, rfl⟩ | ⟨x, hx, rfl⟩ | ⟨op, a, b, x, rest, -, rfl, hx, rfl⟩
  · exact hv
  · exact List.forall_mem_cons.2 ⟨isFinite_of_number? hx, hv⟩
  · have hrest : ∀ y ∈ rest, y.isFinite = true := fun y hy => hv y (by simp [hy])
    exact List.forall_mem_cons.2 ⟨Operator.isFinite_of_evaluate hx, hrest⟩

theorem isFinite_of_pushAll (hv : ∀ x ∈ values, x.isFinite = true)
    (h : pushAll values texts = .ok values') : ∀ x ∈ values', x.isFinite = true := by
  induction texts generalizing values with
  | nil =>
    cases h
    exact hv
  | cons text texts ih =>
    obtain ⟨next, hnext, h⟩ := pushAll_cons_eq_ok_iff.1 h
    exact ih (isFinite_of_push hv hnext) h

theorem push_error_cases {f : Fault} (h : push values text = .error f) :
    f = .unknownToken text ∧ text ≠ "" ∧ number? text = none ∧ Operator.ofSymbol? text = none ∨
      f = .missingOperand text ∨ f = .divisionByZero ∨ f = .nonFiniteResult text := by
  unfold push at h
  split at h
  · cases h
  · split at h
    · cases h
    · split at h
      · cases h
        exact .inl ⟨rfl, ‹_›, ‹_›, ‹_›⟩
      · rename_i op hop
        split at h
        · rename_i b a rest
          cases he : op.evaluate text a b with
          | ok x =>
            rw [he] at h
            cases h
          | error g =>
            rw [he] at h
            cases h
            exact .inr (.inr (Operator.evaluate_error_cases he))
        · cases h
          exact .inr (.inl rfl)

theorem exists_push_of_pushAll {f : Fault} (h : pushAll values texts = .error f) :
    ∃ front text rest next, texts = front ++ text :: rest ∧ pushAll values front = .ok next ∧
      push next text = .error f := by
  induction texts generalizing values with
  | nil => cases h
  | cons text texts ih =>
    cases hp : push values text with
    | error g =>
      rw [pushAll, hp] at h
      cases h
      exact ⟨[], text, texts, values, rfl, rfl, hp⟩
    | ok next =>
      rw [pushAll, hp] at h
      obtain ⟨front, last, rest, final, rfl, hfront, hlast⟩ := ih h
      exact ⟨text :: front, last, rest, final, rfl, pushAll_cons_eq_ok_iff.2 ⟨next, hp, hfront⟩,
        hlast⟩

theorem eq_nil_of_push (h : push values text = .ok []) : values = [] ∧ text = "" := by
  rcases push_cases h with ⟨ht, hv⟩ | ⟨x, -, hv⟩ | ⟨op, a, b, x, rest, -, -, -, hv⟩
  · exact ⟨hv.symm, ht⟩
  · cases hv
  · cases hv

theorem eq_nil_of_pushAll (h : pushAll values texts = .ok []) :
    values = [] ∧ ∀ text ∈ texts, text = "" := by
  induction texts generalizing values with
  | nil =>
    cases h
    exact ⟨rfl, List.forall_mem_nil _⟩
  | cons text texts ih =>
    obtain ⟨next, hnext, h⟩ := pushAll_cons_eq_ok_iff.1 h
    obtain ⟨rfl, hrest⟩ := ih h
    obtain ⟨rfl, ht⟩ := eq_nil_of_push hnext
    exact ⟨rfl, List.forall_mem_cons.2 ⟨ht, hrest⟩⟩

theorem evaluate_eq_ok_iff_pushAll {x : Float} :
    evaluate texts = .ok x ↔ pushAll [] texts = .ok [x] := by
  unfold evaluate
  cases h : pushAll [] texts with
  | error f => simp [Except.bind]
  | ok values =>
    match values with
    | [] => simp [Except.bind]
    | [y] => simp [Except.bind]
    | y :: z :: rest => simp [Except.bind]

theorem isFinite_of_evaluate {x : Float} (h : evaluate texts = .ok x) : x.isFinite = true := by
  have hv := isFinite_of_pushAll (List.forall_mem_nil _) (evaluate_eq_ok_iff_pushAll.1 h)
  exact hv x (List.mem_singleton.2 rfl)

theorem evaluate_error_cases {f : Fault} (h : evaluate texts = .error f) :
    pushAll [] texts = .error f ∨ ∃ values, pushAll [] texts = .ok values ∧ values.length ≠ 1 ∧
      f = .leftoverValues values.length := by
  unfold evaluate at h
  cases hp : pushAll [] texts with
  | error g =>
    rw [hp] at h
    cases h
    exact .inl rfl
  | ok values =>
    rw [hp] at h
    match values, h with
    | [], h =>
      cases h
      exact .inr ⟨[], rfl, by decide, rfl⟩
    | x :: y :: rest, h =>
      cases h
      exact .inr ⟨x :: y :: rest, rfl, by simp, rfl⟩

theorem pushAll_of_leftoverValues {n : Nat} (h : evaluate texts = .error (.leftoverValues n)) :
    ∃ values, pushAll [] texts = .ok values ∧ values.length = n ∧ n ≠ 1 := by
  rcases evaluate_error_cases h with h | ⟨values, hv, hne, hn⟩
  · obtain ⟨front, last, rest, next, -, -, hlast⟩ := exists_push_of_pushAll h
    rcases push_error_cases hlast with ⟨ht, -⟩ | ht | ht | ht <;> cases ht
  · cases hn
    exact ⟨values, hv, rfl, hne⟩

theorem mem_of_unknownToken (h : evaluate texts = .error (.unknownToken text)) :
    text ∈ texts ∧ number? text = none ∧ Operator.ofSymbol? text = none := by
  rcases evaluate_error_cases h with h | ⟨values, -, -, ht⟩
  · obtain ⟨front, last, rest, next, rfl, -, hlast⟩ := exists_push_of_pushAll h
    rcases push_error_cases hlast with ⟨ht, -, hn, ho⟩ | ht | ht | ht
    · cases ht
      exact ⟨by simp, hn, ho⟩
    · cases ht
    · cases ht
    · cases ht
  · cases ht

end ReversePolish
end PocketCalculator
