import PocketCalculator.Entry.Basic
import PocketCalculator.Keypad.Button
import PocketCalculator.Number.Places
import PocketCalculator.Session.Panel
import PocketCalculator.Settings

/-! A session at the keypad. One step answers with an outcome or a refusal, with the changes it
makes to the display, and with the entry it leaves. A refused step leaves the entry as it was; a
step that is ignored changes nothing at all. -/

namespace PocketCalculator

inductive Outcome where
  | accepted
  | evaluated (value : Float) (text : String)
  | cleared
  | ignored
  deriving DecidableEq

namespace Session

structure Step where
  outcome : Except Refusal Outcome
  changes : List Change
  entry : Entry

def refuse (s : Settings) (e : Entry) (r : Refusal) : Step :=
  ⟨.error r, [.error (some (s.messages.text r))], e⟩

/-- The first key of an expression takes the last result off the display. -/
def edit (s : Settings) (e : Entry) (k : EditKey) : Step :=
  match e.press k with
  | .error r => refuse s e r
  | .ok e' =>
    ⟨.ok .accepted, (if e.isEmpty then [.result none] else []) ++
      [.equation e'.equation, .error none], e'⟩

def evaluate (s : Settings) (e : Entry) : Step :=
  if e.isEmpty then ⟨.ok .ignored, [], e⟩
  else match e.evaluate with
    | .error r => refuse s e r
    | .ok x =>
      let text := resultText x s.fractionDigits.toNat
      ⟨.ok (.evaluated x text), [.error none, .result (some text)], Entry.empty⟩

def clear : Step := ⟨.ok .cleared, Panel.wipe, Entry.empty⟩

def pressKey (s : Settings) (e : Entry) : Key → Step
  | .edit k => edit s e k
  | .command .clear => clear
  | .command .evaluate => evaluate s e

def press (s : Settings) (e : Entry) (b : Button) : Step :=
  match b.key? with
  | some k => pressKey s e k
  | none => ⟨.ok .ignored, [], e⟩

end Session

inductive Press where
  | button (b : Button)
  | key (k : Key)
  deriving DecidableEq, Repr

structure Session where
  settings : Settings
  entry : Entry
  panel : Panel
  deriving DecidableEq, Repr

namespace Session

def start (s : Settings) : Session := ⟨s, Entry.empty, Panel.blank.showAll Panel.wipe⟩

def answer (s : Session) : Press → Step
  | .button b => Session.press s.settings s.entry b
  | .key k => pressKey s.settings s.entry k

def next (s : Session) (p : Press) : Session :=
  let step := s.answer p
  { s with entry := step.entry, panel := s.panel.showAll step.changes }

def run (s : Session) (ps : List Press) : Session := ps.foldl next s

@[simp] theorem run_nil (s : Session) : s.run [] = s := rfl

@[simp] theorem run_cons (s : Session) (p : Press) (ps : List Press) :
    s.run (p :: ps) = (s.next p).run ps := rfl

theorem run_append (s : Session) (ps qs : List Press) : s.run (ps ++ qs) = (s.run ps).run qs :=
  List.foldl_append

end Session
end PocketCalculator
