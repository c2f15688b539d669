import Ippcode.Main
import Ippcode.Source.Reader
import Ippcode.Proofs.Analysis.Concatenation
import Ippcode.Proofs.Analysis.Image
import Ippcode.Proofs.Analysis.Language
import Ippcode.Proofs.Analysis.Layout
import Ippcode.Proofs.Analysis.LetterCase
import Ippcode.Proofs.Analysis.WholeText
import Ippcode.Proofs.Command.AllOrNothing
import Ippcode.Proofs.Command.Arguments
import Ippcode.Proofs.Command.Log
import Ippcode.Proofs.Instruction.Miscount
import Ippcode.Proofs.Operand.Classes
import Ippcode.Proofs.Program.Characters
import Ippcode.Proofs.Program.Listing
import Ippcode.Proofs.Sink.Writing
import Ippcode.Proofs.Source.Parts
import Ippcode.Proofs.Source.Reader
import Ippcode.Proofs.Source.TextLines
import Ippcode.Proofs.Xml.References
