import Statechart.Text.Blank
import Statechart.Text.Word
import Statechart.Text.Numeral
import Statechart.Table
import Statechart.Variable
import Statechart.Fault
import Statechart.Token.Basic
import Statechart.Expr.Operator
import Statechart.Expr.Basic
import Statechart.Expr.Symbol
import Statechart.Expr.Reader
import Statechart.Condition
import Statechart.Action.Basic
import Statechart.Action.Reader
import Statechart.Label.Section
import Statechart.Label.Parts
import Statechart.Label.Basic
import Statechart.Planar.Basic
import Statechart.Dve.Output
import Statechart.Dve.Process
import Statechart.Dve.Feed
import Statechart.Xml.Basic
import Statechart.Xml.Character
import Statechart.Xml.Reader
import Statechart.Xml.Document
import Statechart.Chart.Basic
import Statechart.Chart.Outline
import Statechart.Chart.Check
import Statechart.Label.Cache
import Statechart.Planar.Flatten
import Statechart.Compile
import Statechart.Label.Listing
import Statechart.Text.Search
import Statechart.Trace
import Statechart.Command.Run
import Statechart.Sample.Report
import Statechart.Main
import Statechart.Proofs.Label.Lines
import Statechart.Proofs.Label.Marks
import Statechart.Proofs.Runs
import Statechart.Proofs.Chart.Forest
import Statechart.Proofs.Chart.Shape
import Statechart.Proofs.Label.View
import Statechart.Proofs.Planar.Ways
import Statechart.Proofs.Planar.Generated
import Statechart.Proofs.Planar.Flattening
import Statechart.Proofs.Planar.Priorities
import Statechart.Proofs.Dve.Guards
import Statechart.Proofs.Dve.Alternation
import Statechart.Proofs.Dve.Determinism
import Statechart.Proofs.Chart.Drawn
import Statechart.Proofs.Planar.Actions
import Statechart.Proofs.Planar.Hoisting
import Statechart.Proofs.Dve.Declared
import Statechart.Proofs.Planar.Survival
import Statechart.Proofs.Dve.Turns
import Statechart.Proofs.Text.Places
import Statechart.Proofs.Trace.Numbers
import Statechart.Proofs.Trace.Reading
import Statechart.Proofs.Trace.Located
import Statechart.Proofs.Trace.Feeding
import Statechart.Proofs.Trace.Agreement
import Statechart.Proofs.Compile
import Statechart.Proofs.Token.Cuts
import Statechart.Proofs.Label.Sections
import Statechart.Proofs.Label.Split
import Statechart.Proofs.Expr.Dialects
import Statechart.Proofs.Expr.Statements
import Statechart.Proofs.Text.Numerals
import Statechart.Proofs.Planar.Defaults
import Statechart.Proofs.Dve.Priority
import Statechart.Proofs.Expr.Grammar
import Statechart.Proofs.Expr.Respelling
import Statechart.Proofs.Planar.Inheritance
import Statechart.Proofs.Label.Ownership
import Statechart.Proofs.Planar.Requests
import Statechart.Proofs.Planar.Variables
import Statechart.Proofs.Chart.Reordering
import Statechart.Proofs.Planar.Reordering
import Statechart.Proofs.Planar.Descent
import Statechart.Proofs.Dve.Assignments
import Statechart.Proofs.Dve.Enumeration
import Statechart.Proofs.Trace.Decoding
import Statechart.Proofs.Action.Sequencing
import Statechart.Proofs.Label.Headings
import Statechart.Proofs.Label.Retrieval
import Statechart.Proofs.Action.Redeclaration
import Statechart.Proofs.Action.Renaming
import Statechart.Proofs.Label.Outcomes
import Statechart.Proofs.Label.BlankParts
import Statechart.Proofs.Action.TypeWords
import Statechart.Proofs.Action.Trailing
import Statechart.Proofs.Label.CommentedParts
import Statechart.Proofs.Label.Comments
import Statechart.Proofs.Action.Grammar
import Statechart.Proofs.Action.Output
import Statechart.Proofs.Action.NormalForm
import Statechart.Proofs.Token.Reach
import Statechart.Proofs.Action.Updates
import Statechart.Proofs.Expr.PlusSigns
import Statechart.Proofs.Token.LineCounts
import Statechart.Proofs.Label.ErrorLines
import Statechart.Proofs.Command.DefaultOutput
