import Offside.Batch
import Offside.Command
import Offside.Console.Completion
import Offside.Console.Dialogue
import Offside.Console.Entry
import Offside.Console.Highlight
import Offside.Diagnostic
import Offside.Evaluation
import Offside.Machine
import Offside.Main
import Offside.Number.Decimal
import Offside.Number.Dyadic
import Offside.Proofs.Alike
import Offside.Proofs.Balance
import Offside.Proofs.BlockEnds
import Offside.Proofs.BlockHeaders
import Offside.Proofs.BlockReading
import Offside.Proofs.Brackets
import Offside.Proofs.ByteOrder
import Offside.Proofs.CallDepth
import Offside.Proofs.Carrying
import Offside.Proofs.CaseByCase
import Offside.Proofs.Completions
import Offside.Proofs.CompoundReading
import Offside.Proofs.Contract
import Offside.Proofs.Correspondence
import Offside.Proofs.CountingLoops
import Offside.Proofs.Coverage
import Offside.Proofs.Cutting
import Offside.Proofs.DepthLimit
import Offside.Proofs.Dialogues
import Offside.Proofs.Dumps
import Offside.Proofs.Endings
import Offside.Proofs.Equality
import Offside.Proofs.ErrorOrder
import Offside.Proofs.ExactSums
import Offside.Proofs.ExprAbreast
import Offside.Proofs.ExprCompleteness
import Offside.Proofs.ExprGrammar
import Offside.Proofs.ExprReading
import Offside.Proofs.FrameDiscipline
import Offside.Proofs.Fuel
import Offside.Proofs.Histories
import Offside.Proofs.Identities
import Offside.Proofs.Indentation
import Offside.Proofs.InertText
import Offside.Proofs.Insertion
import Offside.Proofs.Isolation
import Offside.Proofs.JoinedLines
import Offside.Proofs.Joining
import Offside.Proofs.Leeway
import Offside.Proofs.Lines
import Offside.Proofs.ListObjects
import Offside.Proofs.LongestMatch
import Offside.Proofs.MovedRuns
import Offside.Proofs.Moves
import Offside.Proofs.NumberTexts
import Offside.Proofs.NumberValues
import Offside.Proofs.Origins
import Offside.Proofs.Outcomes
import Offside.Proofs.OutlineReading
import Offside.Proofs.Outlines
import Offside.Proofs.Padding
import Offside.Proofs.Painting
import Offside.Proofs.ParsersAbreast
import Offside.Proofs.Pieces
import Offside.Proofs.Placement
import Offside.Proofs.Readers
import Offside.Proofs.ReadersAbreast
import Offside.Proofs.Recovery
import Offside.Proofs.Rejections
import Offside.Proofs.Relayout
import Offside.Proofs.ReportPlaces
import Offside.Proofs.Scanning
import Offside.Proofs.ScopeLaws
import Offside.Proofs.Scopes
import Offside.Proofs.Scripts
import Offside.Proofs.Selections
import Offside.Proofs.Simulation
import Offside.Proofs.SinkLimits
import Offside.Proofs.Spellings
import Offside.Proofs.Splitting
import Offside.Proofs.StmtAbreast
import Offside.Proofs.StmtCompleteness
import Offside.Proofs.StmtGrammar
import Offside.Proofs.StmtReading
import Offside.Proofs.StreamShape
import Offside.Proofs.Streams
import Offside.Proofs.SupportedRuns
import Offside.Proofs.SupportedScripts
import Offside.Proofs.SupportedTrees
import Offside.Proofs.Totality
import Offside.Proofs.Transitions
import Offside.Proofs.Transparency
import Offside.Proofs.TreeOutlines
import Offside.Proofs.Values
import Offside.Proofs.Writing
import Offside.Proofs.Yield
import Offside.Report
import Offside.Runner
import Offside.RuntimeError
import Offside.Scope
import Offside.Session
import Offside.Sink
import Offside.Text.Blank
import Offside.Text.Names
import Offside.Text.Place
import Offside.Text.Rows
import Offside.Text.Span
import Offside.Token.Kind
import Offside.Token.Layout
import Offside.Token.Piece
import Offside.Tree.Basic
import Offside.Tree.Dump
import Offside.Tree.ExprReader
import Offside.Tree.Parser
import Offside.Tree.Reader
import Offside.Tree.SyntaxError
import Offside.Value.Basic
import Offside.Value.Operator
import Offside.Value.Selection
