import PocketCalculator.Transcript

/-! The command line: the arguments are the labels of the buttons to press. -/

def main (labels : List String) : IO Unit :=
  (PocketCalculator.Transcript.lines labels).forM fun l => IO.println l
