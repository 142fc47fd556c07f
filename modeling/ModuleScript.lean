import ModuleScript.Command
import ModuleScript.CommandLine
import ModuleScript.Expr
import ModuleScript.Heap.Basic
import ModuleScript.Heap.Display
import ModuleScript.Heap.Equality
import ModuleScript.Host
import ModuleScript.Machine.Config
import ModuleScript.Machine.Import
import ModuleScript.Machine.Operators
import ModuleScript.Machine.Run
import ModuleScript.Machine.State
import ModuleScript.Machine.Step
import ModuleScript.Main
import ModuleScript.Native
import ModuleScript.Number.Decimal
import ModuleScript.Number.Display
import ModuleScript.Number.Reading
import ModuleScript.Number.Shortest
import ModuleScript.Parser.Basic
import ModuleScript.Parser.Expr
import ModuleScript.Parser.Stmt
import ModuleScript.Proofs.Command
import ModuleScript.Proofs.Erasing.Erase
import ModuleScript.Proofs.Erasing.Runs
import ModuleScript.Proofs.Erasing.Steps
import ModuleScript.Proofs.Grammar
import ModuleScript.Proofs.Heap.Bisimulation
import ModuleScript.Proofs.Heap.Clashes
import ModuleScript.Proofs.Heap.Comparison
import ModuleScript.Proofs.Heap.Graph
import ModuleScript.Proofs.Heap.Likeness
import ModuleScript.Proofs.Heap.Rendering
import ModuleScript.Proofs.Heap.Sameness
import ModuleScript.Proofs.Linking.Imports
import ModuleScript.Proofs.Linking.Modules
import ModuleScript.Proofs.Linking.Natives
import ModuleScript.Proofs.Linking.Taking
import ModuleScript.Proofs.Linking.Verdicts
import ModuleScript.Proofs.Machine.Agreement
import ModuleScript.Proofs.Machine.Changes
import ModuleScript.Proofs.Machine.Evaluations
import ModuleScript.Proofs.Machine.Faults
import ModuleScript.Proofs.Machine.Runs
import ModuleScript.Proofs.Machine.Starts
import ModuleScript.Proofs.Machine.Straight
import ModuleScript.Proofs.Machine.Values
import ModuleScript.Proofs.Machine.Work
import ModuleScript.Proofs.Number.Literals
import ModuleScript.Proofs.Number.Spelling
import ModuleScript.Proofs.Parser.Block
import ModuleScript.Proofs.Parser.Class
import ModuleScript.Proofs.Parser.Expr
import ModuleScript.Proofs.Parser.Progress
import ModuleScript.Proofs.Parser.Reading
import ModuleScript.Proofs.Parser.Simple
import ModuleScript.Proofs.Parser.Stmt
import ModuleScript.Proofs.Persistence.Runs
import ModuleScript.Proofs.Persistence.Store
import ModuleScript.Proofs.Printing.Print
import ModuleScript.Proofs.Printing.RoundTrip
import ModuleScript.Proofs.Printing.Texts
import ModuleScript.Proofs.Progress.Cursor
import ModuleScript.Proofs.Progress.Ending
import ModuleScript.Proofs.Renaming.Configs
import ModuleScript.Proofs.Renaming.Rename
import ModuleScript.Proofs.Renaming.Runs
import ModuleScript.Proofs.Renaming.Scopes
import ModuleScript.Proofs.Renaming.Steps
import ModuleScript.Proofs.Renaming.Twins
import ModuleScript.Proofs.Scopes
import ModuleScript.Proofs.Scopes.Operations
import ModuleScript.Proofs.Scoping.Blocks
import ModuleScript.Proofs.Scoping.Effect
import ModuleScript.Proofs.Scoping.Invariant
import ModuleScript.Proofs.Scoping.Runs
import ModuleScript.Proofs.Scoping.Steps
import ModuleScript.Proofs.Sessions
import ModuleScript.Proofs.Sharing.Invariants
import ModuleScript.Proofs.Sharing.Live
import ModuleScript.Proofs.Sharing.Runs
import ModuleScript.Proofs.Sharing.Slots
import ModuleScript.Proofs.Sharing.Steps
import ModuleScript.Proofs.Source.Lexemes
import ModuleScript.Proofs.Source.Lines
import ModuleScript.Proofs.Source.Pieces
import ModuleScript.Proofs.Source.Scan
import ModuleScript.Proofs.Source.Writing
import ModuleScript.Proofs.Table
import ModuleScript.Proofs.Tandem.Expr
import ModuleScript.Proofs.Tandem.LetValue
import ModuleScript.Proofs.Tandem.Parsers
import ModuleScript.Proofs.Tandem.Relabelling
import ModuleScript.Proofs.Tandem.Stmt
import ModuleScript.Proofs.Viable.Expr
import ModuleScript.Proofs.Viable.Fails
import ModuleScript.Proofs.Viable.Module
import ModuleScript.Proofs.Viable.Stmt
import ModuleScript.Scopes
import ModuleScript.Session
import ModuleScript.Source.Piece
import ModuleScript.Source.Scan
import ModuleScript.Stmt
import ModuleScript.Table
import ModuleScript.Text.Blank
import ModuleScript.Token
import ModuleScript.Value
