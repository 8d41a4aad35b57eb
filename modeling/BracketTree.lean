import BracketTree.Blank
import BracketTree.Token
import BracketTree.Token.Scanner
import BracketTree.Forest
import BracketTree.Brace
import BracketTree.Kind
import BracketTree.Scope
import BracketTree.Node
import BracketTree.Error
import BracketTree.Tree
import BracketTree.Tree.Setup
import BracketTree.Tree.Recover
import BracketTree.Tree.Insert
import BracketTree.Tree.Evaluate
import BracketTree.Arena
import BracketTree.Arena.Setup
import BracketTree.Arena.Insert
import BracketTree.Arena.Evaluate
import BracketTree.Diagnostic
import BracketTree.Builder
import BracketTree.Check
import BracketTree.Json.Fault
import BracketTree.Json.Text
import BracketTree.Json.Number
import BracketTree.Json.Value
import BracketTree.Json.Record
import BracketTree.Config
import BracketTree.Token.Json
import BracketTree.CommandLine.Files
import BracketTree.CommandLine.FileTree
import BracketTree.CommandLine.Evaluation
import BracketTree.CommandLine.Survey
import BracketTree.Main
import BracketTree.Proofs.Token.Grammar
import BracketTree.Proofs.Token.Rendering
import BracketTree.Proofs.Token.ErrorPosition
import BracketTree.Proofs.Token.Concatenation
import BracketTree.Proofs.Token.Depths
import BracketTree.Proofs.Forest.Spine
import BracketTree.Proofs.Tree.View
import BracketTree.Proofs.Tree.WellFormed
import BracketTree.Proofs.Tree.Edit
import BracketTree.Proofs.Tree.Reachable
import BracketTree.Proofs.Forest.Everywhere
import BracketTree.Proofs.Tree.Setup
import BracketTree.Proofs.Tree.Recover
import BracketTree.Proofs.Tree.Insert
import BracketTree.Proofs.Tree.Breaks
import BracketTree.Proofs.Tree.Underway
import BracketTree.Proofs.Tree.Intake
import BracketTree.Proofs.Tree.Evaluate
import BracketTree.Proofs.Tree.Statement
import BracketTree.Proofs.Tree.Scopes
import BracketTree.Proofs.Tree.ScopeChain
import BracketTree.Proofs.Tree.Growth
import BracketTree.Proofs.Tree.Operation
import BracketTree.Proofs.Tree.Orderly
import BracketTree.Proofs.Tree.Lifecycle
import BracketTree.Proofs.Tree.Calls
import BracketTree.Proofs.Tree.Truncation
import BracketTree.Proofs.Tree.Resumption
import BracketTree.Proofs.Tree.Elision
import BracketTree.Proofs.Tree.Postorder
import BracketTree.Proofs.Tree.Nameless
import BracketTree.Proofs.Tree.Alike
import BracketTree.Proofs.Builder.Balance
import BracketTree.Proofs.Builder.Elision
import BracketTree.Proofs.Builder.Stack
import BracketTree.Proofs.Builder.Strict
import BracketTree.Proofs.Builder.Denotation
import BracketTree.Proofs.Builder.Progress
import BracketTree.Proofs.Builder.Locality
import BracketTree.Proofs.Builder.Scopes
import BracketTree.Proofs.Builder.Evaluation
import BracketTree.Proofs.Builder.Alike
import BracketTree.Proofs.Builder.Omission
import BracketTree.Proofs.Builder.Trace
import BracketTree.Proofs.Builder.Composition
import BracketTree.Proofs.Builder.Nesting
import BracketTree.Proofs.Builder.Readiness
import BracketTree.Proofs.Builder.CommandTrace
import BracketTree.Proofs.Builder.FirstFailure
import BracketTree.Proofs.Builder.Unrecovered
import BracketTree.Proofs.Builder.Warnings
import BracketTree.Proofs.Builder.OpenChain
import BracketTree.Proofs.Builder.Refused
import BracketTree.Proofs.Builder.Groups
import BracketTree.Proofs.Json.Record
import BracketTree.Proofs.Tree.Descendants
import BracketTree.Proofs.Json.RoundTrip
import BracketTree.Proofs.Arena.Run
import BracketTree.Proofs.Arena.View
import BracketTree.Proofs.Arena.Setup
import BracketTree.Proofs.Arena.Edit
import BracketTree.Proofs.Arena.Insert
import BracketTree.Proofs.Arena.Evaluate
import BracketTree.Proofs.Arena.Simulation
