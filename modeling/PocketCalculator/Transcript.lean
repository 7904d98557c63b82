import PocketCalculator.Number.Shortest
import PocketCalculator.Session.Basic

/-! The transcript of a session: a line for every label, with what the display shows after it. A
label that no button bears is reported and skipped. -/

namespace PocketCalculator.Transcript

def padRight (width : Nat) (s : String) : String :=
  s ++ String.ofList (List.replicate (width - s.length) ' ')

def padLeft (width : Nat) (s : String) : String :=
  String.ofList (List.replicate (width - s.length) ' ') ++ s

/-- The text of a result holds digits, a sign and a point, so that nothing in it needs an escape. -/
def outcomeText : Except Refusal Outcome → String
  | .ok .accepted => "Ok(Accepted)"
  | .ok (.evaluated value text) =>
    "Ok(Evaluated \x7b value: " ++ shortestText value ++ ", formatted: \"" ++ text ++ "\" \x7d)"
  | .ok .cleared => "Ok(Cleared)"
  | .ok .ignored => "Ok(Ignored)"
  | .error r => "Err(" ++ r.name ++ ")"

def line (label : String) (p : Panel) (outcome : Except Refusal Outcome) : String :=
  padLeft 3 label ++ "  equation: " ++ padRight 20 p.equation ++ " result: " ++
    padRight 8 (p.result.getD "") ++
    " error: " ++ p.error.getD "" ++ "  (" ++ outcomeText outcome ++ ")"

def skipped (label : String) (u : Unresolved) : String :=
  padLeft 3 label ++ "  skipped: " ++ u.message

def run (s : Session) : List String → List String
  | [] => []
  | label :: labels =>
    match Button.ofLabel label with
    | .error u => skipped label u :: run s labels
    | .ok b =>
      let s' := s.next (.button b)
      line label s'.panel (s.answer (.button b)).outcome :: run s' labels

def sample : List String := ["7", "÷", "2", "=", "+", "(", "1", ",", ",", "5", ")", "="]

def lines (labels : List String) : List String :=
  "=== Keypad Session Example ===" :: "" ::
    run (Session.start .standard) (if labels.isEmpty then sample else labels)

end PocketCalculator.Transcript
