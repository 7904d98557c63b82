import PocketCalculator.Entry.Basic
import Mathlib.Data.List.Basic
import Mathlib.Data.List.Induction

/-! Which tokens may follow each other, and when brackets are balanced: the two conditions on a
sequence of tokens that can be checked token by token. -/

namespace PocketCalculator

def Token.Kind.MayCome : Option Kind → Kind → Prop
  | none, k => k = operand ∨ k = openBracket
  | some operand, k | some closeBracket, k => k = operator ∨ k = closeBracket
  | some operator, k | some openBracket, k => k = operand ∨ k = openBracket ∨ k = closeBracket

def lastKind (ts : List Token) : Option Token.Kind := ts.getLast?.map Token.kind

def OrderedAfter : Option Token.Kind → List Token → Prop
  | _, [] => True
  | last, t :: ts => Token.Kind.MayCome last t.kind ∧ OrderedAfter (some t.kind) ts

def Ordered (ts : List Token) : Prop := OrderedAfter none ts

/-- No front part has more closing brackets than open ones. -/
def Balanced (ts : List Token) : Prop :=
  ∀ front, front <+: ts → front.count .closeBracket ≤ front.count .openBracket

namespace Token.Kind
variable {last : Option Kind}

theorem mayCome_operand_iff :
    MayCome last operand ↔ last ≠ some operand ∧ last ≠ some closeBracket := by
  rcases last with - | last
  · simp [MayCome]
  · cases last <;> simp [MayCome]

theorem mayCome_openBracket_iff :
    MayCome last openBracket ↔ last ≠ some operand ∧ last ≠ some closeBracket := by
  rcases last with - | last
  · simp [MayCome]
  · cases last <;> simp [MayCome]

theorem mayCome_closeBracket_iff : MayCome last closeBracket ↔ last ≠ none := by
  rcases last with - | last
  · simp [MayCome]
  · cases last <;> simp [MayCome]

theorem mayCome_operator_iff :
    MayCome last operator ↔ last = some operand ∨ last = some closeBracket := by
  rcases last with - | last
  · simp [MayCome]
  · cases last <;> simp [MayCome]

end Token.Kind

variable {ts : List Token} {t : Token}

@[simp] theorem lastKind_nil : lastKind [] = none := rfl

@[simp] theorem lastKind_concat : lastKind (ts ++ [t]) = some t.kind := by
  rw [lastKind, List.getLast?_concat, Option.map_some]

theorem lastKind_eq_none_iff : lastKind ts = none ↔ ts = [] := by
  rw [lastKind, Option.map_eq_none_iff, List.getLast?_eq_none_iff]

theorem exists_operand_of_lastKind (h : lastKind ts = some .operand) :
    ∃ front o, ts = front ++ [.operand o] := by
  rcases List.eq_nil_or_concat' ts with rfl | ⟨front, t, rfl⟩
  · cases h
  · rw [lastKind_concat] at h
    cases t with
    | operand o => exact ⟨front, o, rfl⟩
    | operator op => cases h
    | openBracket => cases h
    | closeBracket => cases h

theorem count_concat (ts : List Token) (t u : Token) :
    (ts ++ [t]).count u = ts.count u + if t = u then 1 else 0 := by
  simp [List.count_append, List.count_singleton]

theorem orderedAfter_concat_iff {last : Option Token.Kind} :
    OrderedAfter last (ts ++ [t]) ↔
      OrderedAfter last ts ∧ Token.Kind.MayCome ((lastKind ts).or last) t.kind := by
  induction ts generalizing last with
  | nil => simp [OrderedAfter]
  | cons u ts ih =>
    have hl : (lastKind (u :: ts)).or last = (lastKind ts).or (some u.kind) := by
      cases ts using List.reverseRecOn with
      | nil => rfl
      | append_singleton ts v => rw [← List.cons_append, lastKind_concat, lastKind_concat]; rfl
    rw [List.cons_append, OrderedAfter, ih, OrderedAfter, hl, and_assoc]

theorem ordered_concat_iff :
    Ordered (ts ++ [t]) ↔ Ordered ts ∧ Token.Kind.MayCome (lastKind ts) t.kind := by
  rw [Ordered, orderedAfter_concat_iff, Option.or_none, Ordered]

theorem balanced_nil : Balanced [] := fun front h => by simp [List.prefix_nil.1 h]

theorem balanced_concat_iff :
    Balanced (ts ++ [t]) ↔ Balanced ts ∧
      (t = .closeBracket → ts.count .closeBracket < ts.count .openBracket) := by
  constructor
  · intro h
    refine ⟨fun front hf => h front (hf.trans (List.prefix_append _ _)), ?_⟩
    rintro rfl
    have hall := h _ List.prefix_rfl
    rw [count_concat, count_concat, if_pos rfl, if_neg (by decide)] at hall
    exact hall
  · rintro ⟨h, ht⟩ front hf
    rcases List.prefix_concat_iff.1 hf with rfl | hf
    · have hle := h ts List.prefix_rfl
      rw [count_concat, count_concat]
      split
      · have hlt := ht ‹_›
        omega
      · omega
    · exact h front hf

theorem openBracketCount_concat (ts : List Token) (t : Token) :
    openBracketCount (ts ++ [t]) =
      match t with
      | .openBracket => openBracketCount ts + 1
      | .closeBracket => openBracketCount ts - 1
      | _ => openBracketCount ts := by
  rw [openBracketCount, List.foldl_concat]
  rfl

theorem Balanced.openBracketCount_add (h : Balanced ts) :
    openBracketCount ts + ts.count .closeBracket = ts.count .openBracket := by
  induction ts using List.reverseRecOn with
  | nil => rfl
  | append_singleton ts t ih =>
    obtain ⟨hb, hc⟩ := balanced_concat_iff.1 h
    have hi := ih hb
    cases t with
    | closeBracket =>
      have hlt := hc rfl
      have hs : openBracketCount (ts ++ [.closeBracket]) = openBracketCount ts - 1 :=
        openBracketCount_concat ts _
      rw [hs, count_concat, count_concat, if_pos rfl, if_neg (by decide)]
      omega
    | openBracket =>
      have hs : openBracketCount (ts ++ [.openBracket]) = openBracketCount ts + 1 :=
        openBracketCount_concat ts _
      rw [hs, count_concat, count_concat, if_neg (by decide), if_pos rfl]
      omega
    | operand o => simpa [openBracketCount_concat, count_concat] using hi
    | operator op => simpa [openBracketCount_concat, count_concat] using hi

namespace Entry

/-- All tokens, the number being typed as the last one. -/
def stream (e : Entry) : List Token := e.tokens ++ e.pending?.toList.map .operand

variable {e : Entry}

theorem stream_of_eq (h : e.digits = "") : e.stream = e.tokens := by
  rw [stream, pending?, if_pos h, Option.toList_none, List.map_nil, List.append_nil]

theorem stream_of_ne (h : e.digits ≠ "") :
    e.stream = e.tokens ++ [.operand ⟨e.digits, e.sign⟩] := by
  rw [stream, pending?, if_neg h, Option.toList_some, List.map_singleton]

theorem lastKind_stream (e : Entry) :
    lastKind e.stream = if e.digits = "" then lastKind e.tokens else some .operand := by
  split
  · rw [stream_of_eq ‹_›]
  · rw [stream_of_ne ‹_›, lastKind_concat]
    rfl

theorem typed_eq_map_stream (e : Entry) : e.typed = e.stream.map Token.plain := by
  rw [typed, stream, List.map_append, List.map_map]
  rfl

theorem balanced_stream_iff : Balanced e.stream ↔ Balanced e.tokens := by
  by_cases h : e.digits = ""
  · rw [stream_of_eq h]
  · rw [stream_of_ne h, balanced_concat_iff, and_iff_left (by simp)]

theorem count_stream {t : Token} (ht : t.kind ≠ .operand) :
    e.stream.count t = e.tokens.count t := by
  by_cases h : e.digits = ""
  · rw [stream_of_eq h]
  · rw [stream_of_ne h, count_concat, if_neg, Nat.add_zero]
    rintro rfl
    exact ht rfl

theorem finishOperand_of_eq (h : e.digits = "") : e.finishOperand = e := by
  rw [finishOperand, pending?, if_pos h]

theorem operand_mem_stream_iff {o : Operand} :
    .operand o ∈ e.stream ↔ .operand o ∈ e.tokens ∨ e.digits ≠ "" ∧ o = ⟨e.digits, e.sign⟩ := by
  by_cases h : e.digits = ""
  · simp [stream_of_eq h, h]
  · simp [stream_of_ne h, h]

theorem tokens_finishOperand (e : Entry) : e.finishOperand.tokens = e.stream := by
  by_cases h : e.digits = ""
  · rw [stream_of_eq h, finishOperand_of_eq h]
  · rw [stream_of_ne h, finishOperand, pending?, if_neg h]

theorem openBrackets_finishOperand (e : Entry) : e.finishOperand.openBrackets = e.openBrackets := by
  rw [finishOperand]
  split <;> rfl

theorem digits_finishOperand (e : Entry) : e.finishOperand.digits = "" := by
  by_cases h : e.digits = ""
  · rw [finishOperand_of_eq h, h]
  · rw [finishOperand, pending?, if_neg h]

theorem digits_append_finishOperand (e : Entry) (t : Token) :
    (e.finishOperand.append t).digits = "" :=
  e.digits_finishOperand

theorem tokens_append_finishOperand (e : Entry) (t : Token) :
    (e.finishOperand.append t).tokens = e.stream ++ [t] :=
  congrArg (· ++ [t]) e.tokens_finishOperand

theorem stream_append_finishOperand (e : Entry) (t : Token) :
    (e.finishOperand.append t).refresh.stream = e.stream ++ [t] :=
  (stream_of_eq (digits_append_finishOperand e t)).trans (tokens_append_finishOperand e t)

theorem sign_finishOperand (e : Entry) :
    e.finishOperand.sign = if e.digits = "" then e.sign else .positive := by
  by_cases h : e.digits = ""
  · rw [finishOperand_of_eq h, if_pos h]
  · rw [finishOperand, pending?, if_neg h, if_neg h]

theorem hasPoint_finishOperand (e : Entry) :
    e.finishOperand.hasPoint = if e.digits = "" then e.hasPoint else false := by
  by_cases h : e.digits = ""
  · rw [finishOperand_of_eq h, if_pos h]
  · rw [finishOperand, pending?, if_neg h, if_neg h]

end Entry
end PocketCalculator
