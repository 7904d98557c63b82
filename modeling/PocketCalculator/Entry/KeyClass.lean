/-! Classes of keys, and sets of classes held in one byte. A byte may come from a document, so its
two bits that stand for no class are kept as they are; they count where a set is compared or asked
for being empty, and nowhere else. -/

namespace PocketCalculator

inductive KeyClass where
  | number
  | sign
  | decimalPoint
  | openBracket
  | closeBracket
  | operator
  deriving DecidableEq, Repr

namespace KeyClass

def all : List KeyClass := [number, sign, decimalPoint, openBracket, closeBracket, operator]

theorem mem_all (c : KeyClass) : c ∈ all := by cases c <;> decide

def name : KeyClass → String
  | number => "Number"
  | sign => "Sign"
  | decimalPoint => "DecimalPoint"
  | openBracket => "OpenBracket"
  | closeBracket => "CloseBracket"
  | operator => "Operator"

def position : KeyClass → Nat
  | number => 0
  | sign => 1
  | decimalPoint => 2
  | openBracket => 3
  | closeBracket => 4
  | operator => 5

def bit (c : KeyClass) : UInt8 := 1 <<< UInt8.ofNat c.position

end KeyClass

structure KeySet where
  bits : UInt8
  deriving DecidableEq, Repr

namespace KeySet

def empty : KeySet := ⟨0⟩

def insert (s : KeySet) (c : KeyClass) : KeySet := ⟨s.bits ||| c.bit⟩

def insertIf (s : KeySet) (c : KeyClass) (condition : Bool) : KeySet :=
  if condition then s.insert c else s

def ofList (cs : List KeyClass) : KeySet := cs.foldl insert empty

def contains (s : KeySet) (c : KeyClass) : Bool := s.bits &&& c.bit != 0

def isEmpty (s : KeySet) : Bool := s.bits == 0

def toList (s : KeySet) : List KeyClass := KeyClass.all.filter s.contains

def text (s : KeySet) : String := "\x7b" ++ ", ".intercalate (s.toList.map KeyClass.name) ++ "\x7d"

theorem contains_eq_getLsbD (s : KeySet) (c : KeyClass) :
    s.contains c = s.bits.toBitVec.getLsbD c.position := by
  have bound : ∀ b : BitVec 8, ((⟨⟨b⟩⟩ : KeySet).contains c) = b.getLsbD c.position := by
    cases c <;> decide
  exact bound s.bits.toBitVec

@[simp] theorem contains_empty (c : KeyClass) : empty.contains c = false := by cases c <;> rfl

@[simp] theorem contains_insert (s : KeySet) (a c : KeyClass) :
    (s.insert a).contains c = (decide (a = c) || s.contains c) := by
  rw [contains_eq_getLsbD, contains_eq_getLsbD, insert, UInt8.toBitVec_or, BitVec.getLsbD_or,
    Bool.or_comm]
  congr 1
  cases a <;> cases c <;> decide

@[simp] theorem contains_insertIf (s : KeySet) (a c : KeyClass) (condition : Bool) :
    (s.insertIf a condition).contains c = (condition && decide (a = c) || s.contains c) := by
  cases condition <;> simp [insertIf]

end KeySet
end PocketCalculator
