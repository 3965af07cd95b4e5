import Precedence.Kind
import Precedence.Position
import Precedence.Token
import Precedence.Text.Bytes
import Precedence.Text.Blank
import Precedence.Text.Hidden
import Precedence.Text.Quoted
import Precedence.Text.Lines
import Precedence.Scanner
import Precedence.Cursor
import Precedence.Supply
import Precedence.Fault
import Precedence.Expr
import Precedence.Grammar
import Precedence.Parser.Basic
import Precedence.Parser.Expression
import Precedence.Parser.Termination
import Precedence.Parse
import Precedence.Parser.Step
import Precedence.Report
import Precedence.Command.Batch
import Precedence.Command.Run
import Precedence.Main
import Precedence.Proofs.Pending
import Precedence.Proofs.Reading
import Precedence.Proofs.RunOfReading
import Precedence.Proofs.ReadingOfRun
import Precedence.Proofs.WholeInput
import Precedence.Proofs.Stratified
import Precedence.Proofs.StratifiedParse
import Precedence.Proofs.Scanned
import Precedence.Proofs.RoundTrip
import Precedence.Proofs.EarliestFault
import Precedence.Proofs.OperatorTable
import Precedence.Proofs.Alike
import Precedence.Proofs.Fuel
import Precedence.Proofs.History
import Precedence.Proofs.LexedAhead
import Precedence.Proofs.PrintedTree
import Precedence.Proofs.Program
import Precedence.Proofs.Calls
import Precedence.Proofs.NestingGuard
import Precedence.Proofs.Lexemes
import Precedence.Proofs.Blame
import Precedence.Proofs.FaultInText
import Precedence.Proofs.Spelling
import Precedence.Proofs.DepthDiscipline
import Precedence.Proofs.Threshold
import Precedence.Proofs.StepCount
import Precedence.Proofs.AfterFault
import Precedence.Proofs.Recast
import Precedence.Proofs.IgnoredText
import Precedence.Proofs.Relaxed
import Precedence.Proofs.BadTarget
import Precedence.Proofs.AssignmentTargets
import Precedence.Proofs.LineOfByte
import Precedence.Proofs.ReportWidth
import Precedence.Proofs.Caret
import Precedence.Proofs.ReadAnywhere
import Precedence.Proofs.Pulled
import Precedence.Proofs.EndMark
import Precedence.Proofs.Registered
import Precedence.Proofs.FileName
import Precedence.Proofs.LineByLine
import Precedence.Proofs.FileAndInput
import Precedence.Proofs.LinesApart
import Precedence.Proofs.ReadAhead
