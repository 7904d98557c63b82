import PocketCalculator.Proofs.Expression.Surplus

/-! An expression that is typed halfway: groups that are still open, one inside the other. Nobody
refuses a group that is empty or ends in an operator, but each lowers the surplus of its group for
good, so that only what can be read as an expression comes to a surplus of one. -/

namespace PocketCalculator
open ReversePolish

inductive Phase where
  | wanting
  | complete
  deriving DecidableEq, Repr

def Frame : Phase → List String → Prop
  | .complete, ts => surplus ts ≤ 1 ∧ (surplus ts = 1 → ∃ t, Reads .expression ts t)
  | .wanting, ts => surplus ts ≤ 0 ∧ (surplus ts = 0 → ts = [] ∨
      ∃ (us : List String) (op : Operator) (s : String) (t : Tree),
        ts = us ++ [s] ∧ s ∈ op.symbols ∧ Reads .expression us t)

/-- A group for every bracket that is open, around the innermost one. -/
inductive Layers : Phase → Nat → List String → Prop where
  | base {p : Phase} {ts : List String} : Frame p ts → Layers p 0 ts
  | group {p : Phase} {n : Nat} {ts us : List String} : Layers .wanting n ts → Frame p us →
      Layers p (n + 1) (ts ++ "(" :: us)

variable {p q : Phase} {n : Nat} {ts us vs : List String} {s : String} {op : Operator} {t r : Tree}

theorem Reads.append_factor (h : Reads .expression ts t) (hs : s ∈ op.symbols)
    (hr : Reads .factor us r) : ∃ t', Reads .expression (ts ++ s :: us) t' := by
  rcases Operator.mem_symbols_iff.1 hs with hs | hs
  · exact ⟨_, .sum hs h (.factor hr)⟩
  · cases h with
    | term h => exact ⟨_, .term (.product hs h hr)⟩
    | sum h₁ hl h₂ =>
      -- The product binds to the last term of the sum alone.
      rw [List.append_assoc, List.cons_append]
      exact ⟨_, .sum h₁ hl (.product hs h₂ hr)⟩

theorem frame_nil : Frame .wanting [] := ⟨Int.le_refl _, fun _ => .inl rfl⟩

theorem Frame.append_factor (h : Frame .wanting ts) (hle : surplus us ≤ 1)
    (hr : surplus us = 1 → ∃ t, Reads .factor us t) : Frame .complete (ts ++ us) := by
  obtain ⟨hts, hread⟩ := h
  refine ⟨by rw [surplus_append]; omega, fun hsum => ?_⟩
  rw [surplus_append] at hsum
  -- The bounds add up to one, so both parts attain theirs.
  obtain ⟨r, hr⟩ := hr (by omega)
  rcases hread (by omega) with rfl | ⟨vs, op, s, t, rfl, hs, ht⟩
  · exact ⟨r, .term (.factor hr)⟩
  · rw [List.append_assoc, List.singleton_append]
    exact ht.append_factor hs hr

theorem Frame.append_leaf (h : Frame .wanting ts) (hs : s ∉ marks) :
    Frame .complete (ts ++ [s]) := by
  have hw : surplus [s] = 1 := by
    rw [surplus_cons, surplus_nil, Word.ofText_eq_leaf_iff_not_mem_marks.2 hs]
    rfl
  exact h.append_factor (by omega) fun _ => ⟨_, .leaf hs⟩

theorem Frame.append_operator (h : Frame .complete ts) (hs : s ∈ op.symbols) :
    Frame .wanting (ts ++ [s]) := by
  obtain ⟨hts, hread⟩ := h
  have hw : surplus [s] = -1 := by
    rw [surplus_cons, surplus_nil, Word.ofText_symbol hs]
    rfl
  refine ⟨by rw [surplus_append]; omega, fun hsum => ?_⟩
  rw [surplus_append] at hsum
  obtain ⟨t, ht⟩ := hread (by omega)
  exact .inr ⟨ts, op, s, t, rfl, hs, ht⟩

theorem surplus_group (ts : List String) : surplus ("(" :: ts ++ [")"]) = surplus ts := by
  have ho : (Word.ofText "(").weight = 0 := by decide
  have hc : (Word.ofText ")").weight = 0 := by decide
  rw [surplus_append, surplus_cons, surplus_cons, surplus_nil, ho, hc]
  omega

theorem Frame.append_group (h : Frame .wanting ts) (hg : Frame p us) :
    Frame .complete (ts ++ ("(" :: us ++ [")"])) := by
  -- A group that is no expression counts as no operand at best, so that none is expected of it.
  apply h.append_factor
  · rw [surplus_group]
    cases p with
    | wanting => exact Int.le_trans hg.1 (by decide)
    | complete => exact hg.1
  · rw [surplus_group]
    intro hsum
    cases p with
    | wanting =>
      have := hg.1
      omega
    | complete =>
      obtain ⟨t, ht⟩ := hg.2 hsum
      exact ⟨t, .group ht⟩

theorem Layers.append (h : Layers p n ts) (hf : ∀ us, Frame p us → Frame q (us ++ vs)) :
    Layers q n (ts ++ vs) := by
  cases h with
  | base h => exact .base (hf _ h)
  | @group _ n ts us h hu =>
    rw [List.append_assoc, List.cons_append]
    exact .group h (hf us hu)

theorem Layers.close (h : Layers p (n + 1) ts) : Layers .complete n (ts ++ [")"]) := by
  cases h with
  | @group _ _ ts us h hu =>
    rw [List.append_assoc]
    exact h.append fun vs hv => hv.append_group hu

theorem Layers.exists_reads (h : Layers p 0 ts) (hs : surplus ts = 1) :
    ∃ t, Reads .expression ts t := by
  cases h with
  | base h =>
    cases p with
    | wanting =>
      have := h.1
      omega
    | complete => exact h.2 hs

end PocketCalculator
