import Zpl.CommandLine.Answer
import Zpl.Grammar.Script
import Zpl.Json.Decode
import Zpl.Json.Read
import Zpl.Main
import Zpl.Proofs.Placement
import Zpl.Proofs.Coverage
import Zpl.Proofs.Passing
import Zpl.Proofs.Phrase
import Zpl.Proofs.Share
import Zpl.Proofs.Reading
import Zpl.Proofs.Account
import Zpl.Proofs.Cut
import Zpl.Proofs.Relocation
import Zpl.Proofs.RawText
import Zpl.Proofs.Spelling
import Zpl.Proofs.LineBreak
import Zpl.Proofs.Mapped
import Zpl.Proofs.JsonRoundTrip
import Zpl.Proofs.Moved
import Zpl.Proofs.Composition
import Zpl.Proofs.Folding
import Zpl.Proofs.LexicalGrammar
import Zpl.Proofs.TruePosition
import Zpl.Proofs.Slices
import Zpl.Proofs.Failure
import Zpl.Proofs.Operation
import Zpl.Proofs.Confinement
import Zpl.Proofs.Recovery
import Zpl.Proofs.Diagnosis
import Zpl.Proofs.LineEnding
import Zpl.Proofs.JsonOrder
import Zpl.Proofs.Agreement
import Zpl.Proofs.ReportOrder
import Zpl.Proofs.Registering
import Zpl.Proofs.Renaming
import Zpl.Proofs.SourceOrder
import Zpl.Proofs.Progress
import Zpl.Proofs.Barcode
import Zpl.Proofs.Slots
import Zpl.Proofs.Delimiting
import Zpl.Proofs.Suggestion
import Zpl.Proofs.MissingEnd
import Zpl.Proofs.Loading
import Zpl.Proofs.Numeral
