import PocketCalculator.Document.Keys
import PocketCalculator.Document.Settings
import PocketCalculator.Entry.Reached
import PocketCalculator.Expression.Grammar
import PocketCalculator.Json.RoundTrip
import PocketCalculator.Main
import PocketCalculator.Proofs.Expression.Meaning
import PocketCalculator.Proofs.Document.Record
import PocketCalculator.Proofs.Document.Settings
import PocketCalculator.Proofs.Document.Restored
import PocketCalculator.Proofs.Entry.Admission
import PocketCalculator.Proofs.Entry.Numeral
import PocketCalculator.Proofs.Entry.Conforms
import PocketCalculator.Proofs.Entry.Reachability
import PocketCalculator.Proofs.Entry.Restoration
import PocketCalculator.Proofs.Entry.Arithmetic
import PocketCalculator.Proofs.Entry.Equation
import PocketCalculator.Proofs.Entry.Held
import PocketCalculator.Proofs.Entry.Balance
import PocketCalculator.Proofs.Entry.Conversion
import PocketCalculator.Proofs.Session.History
import PocketCalculator.Proofs.Session.Replay
import PocketCalculator.Proofs.Session.Restart
import PocketCalculator.Proofs.Session.Shown
import PocketCalculator.Proofs.Expression.Brackets
import PocketCalculator.Proofs.Expression.Reordering
import PocketCalculator.Proofs.Number.Literal
import PocketCalculator.Proofs.Expression.Conservation
import PocketCalculator.Proofs.Expression.Postorder
import PocketCalculator.Proofs.Entry.Verbatim
import PocketCalculator.Proofs.Entry.Causes
import PocketCalculator.Proofs.Number.Nearest
import PocketCalculator.Proofs.Number.SignedZero
import PocketCalculator.Proofs.Entry.StraySign
import PocketCalculator.Proofs.Expression.WaitingOrder
import PocketCalculator.Proofs.Keypad.Labels
import PocketCalculator.Proofs.Entry.Closing
