import Mc6800.Text.Blank
import Mc6800.Text.Lines
import Mc6800.Text.Number
import Mc6800.Instruction.Set
import Mc6800.Operand.Shape
import Mc6800.Source.Statement
import Mc6800.LabelTable
import Mc6800.Assembly.Passes
import Mc6800.Assembly.Diagnostic
import Mc6800.Session
import Mc6800.Terminal
import Mc6800.Report.Listing
import Mc6800.Report.Dump
import Mc6800.Report.Run
import Mc6800.Main
import Mc6800.Proofs.Assembly.Counters
import Mc6800.Proofs.Assembly.Encoding
import Mc6800.Proofs.MachineCode.RoundTrip
import Mc6800.Proofs.MachineCode.Lookup
import Mc6800.Proofs.Session.Image
import Mc6800.Proofs.Session.FinalLineFeed
import Mc6800.Proofs.Session.Replay
import Mc6800.Proofs.Session.Ceiling
import Mc6800.Proofs.Session.Counter
import Mc6800.Proofs.MachineCode.Loaded
import Mc6800.Proofs.Session.LabelTransfer
import Mc6800.Proofs.Session.Ending
import Mc6800.Proofs.Session.Operations
import Mc6800.Proofs.Assembly.References
import Mc6800.Proofs.Assembly.Relocation
import Mc6800.Proofs.Assembly.Diagnostics
import Mc6800.Proofs.Assembly.Containment
import Mc6800.Proofs.Source.Case
import Mc6800.Proofs.Assembly.Case
import Mc6800.Proofs.Assembly.IdleLines
import Mc6800.Proofs.Session.BlankLines
import Mc6800.Proofs.Source.Layout
import Mc6800.Proofs.Assembly.Referable
import Mc6800.Proofs.Assembly.Hexadecimal
import Mc6800.Proofs.Report.Dump
import Mc6800.Proofs.Assembly.Labelled
import Mc6800.Proofs.Operand.Grammar
import Mc6800.Proofs.Assembly.PassOrder
import Mc6800.Proofs.Assembly.LabelHistory
import Mc6800.Proofs.Checked.Session
import Mc6800.Proofs.Report.Colours
import Mc6800.Proofs.Source.Requests
import Mc6800.Proofs.Report.Listing
