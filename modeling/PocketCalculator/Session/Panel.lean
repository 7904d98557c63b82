/-! The three channels of the display. A session never reads them: it sends changes, and the panel
shows what they left. -/

namespace PocketCalculator

inductive Change where
  | error (text : Option String)
  | equation (text : String)
  | result (text : Option String)
  deriving DecidableEq, Repr

structure Panel where
  error : Option String := none
  equation : String := ""
  result : Option String := none
  deriving DecidableEq, Repr

namespace Panel

def blank : Panel := {}

def apply (p : Panel) : Change → Panel
  | .error text => { p with error := text }
  | .equation text => { p with equation := text }
  | .result text => { p with result := text }

def showAll (p : Panel) (cs : List Change) : Panel := cs.foldl apply p

def wipe : List Change := [.error none, .equation "", .result none]

def isCalculated (p : Panel) : Bool := p.result.isSome

@[simp] theorem showAll_nil (p : Panel) : p.showAll [] = p := rfl

@[simp] theorem showAll_cons (p : Panel) (c : Change) (cs : List Change) :
    p.showAll (c :: cs) = (p.apply c).showAll cs := rfl

theorem showAll_wipe (p : Panel) : p.showAll wipe = blank := rfl

end Panel
end PocketCalculator
