import FieldView.Callable.Unit
import FieldView.Callable.Walk
import FieldView.Callable.Wrapper
import FieldView.Capture.Builtin
import FieldView.Capture.Environment
import FieldView.Capture.Host
import FieldView.Capture.Value
import FieldView.Config.Basic
import FieldView.Config.Search
import FieldView.Decimal.Binary
import FieldView.Decimal.Shortest
import FieldView.Error
import FieldView.Fencil.Basic
import FieldView.Invocation.Argument
import FieldView.Operator.Tree
import FieldView.Operator.Typing
import FieldView.Program.Tree
import FieldView.Program.Typing
import FieldView.Proofs.Closure.Flattening
import FieldView.Proofs.Closure.Meaning
import FieldView.Proofs.Closure.Route
import FieldView.Proofs.Closure.Unfolding
import FieldView.Proofs.Host.Syntax
import FieldView.Proofs.Scope.Kinds
import FieldView.Proofs.Scope.Level
import FieldView.Proofs.Toolchain.Lowering
import FieldView.Proofs.Toolchain.Stage
import FieldView.Scope.Function
import FieldView.Scope.Mark
import FieldView.Scope.Names
import FieldView.Scope.Position
import FieldView.Scope.Statement
import FieldView.Source.Span
import FieldView.Text.Blank
import FieldView.Text.Comma
import FieldView.Text.Fresh
import FieldView.Text.Margin
import FieldView.Text.Word
import FieldView.Token.Integer
import FieldView.Token.Kind
import FieldView.Token.Layout
import FieldView.Token.Lexeme
import FieldView.Token.Number
import FieldView.Token.Quoted
import FieldView.Toml.Document
import FieldView.Toml.Number
import FieldView.Toml.Table
import FieldView.Toml.Text
import FieldView.Toolchain.Basic
import FieldView.Toolchain.Calling
import FieldView.Toolchain.Flattening
import FieldView.Toolchain.Lowering
import FieldView.Toolchain.Unit
import FieldView.Ty.Basic
import FieldView.Ty.Broadcast
import FieldView.Ty.Deduced
import FieldView.Typing.Error
import FieldView.Typing.Symbol
import FieldView.Workbench.Ledger
import FieldView.Workbench.Session
import FieldView.Proofs.Host.Expression
import FieldView.Proofs.Host.Simple
import FieldView.Proofs.Host.Compound
import FieldView.Proofs.Typing.Deduction
import FieldView.Proofs.Typing.Judgment
import FieldView.Proofs.Typing.Body
import FieldView.Proofs.Typing.Erasure
import FieldView.Proofs.Typing.Calls
import FieldView.Proofs.Toolchain.Cache
import FieldView.Proofs.Toolchain.Family
import FieldView.Proofs.Typing.Scoping
import FieldView.Proofs.Toolchain.Requests
import FieldView.Proofs.Closure.Closedness
import FieldView.Proofs.Toolchain.Calling
import FieldView.Proofs.Token.Nesting
import FieldView.Proofs.Token.Spelling
import FieldView.Proofs.Token.Grammar
import FieldView.Proofs.Token.Coverage
import FieldView.Proofs.Ty.Broadcast
import FieldView.Proofs.Ty.Choice
import FieldView.Proofs.Ty.Refinement
import FieldView.Proofs.Typing.Agreement
import FieldView.Proofs.Typing.CallTrees
import FieldView.Proofs.Typing.Comparison
import FieldView.Proofs.Typing.Doubling
import FieldView.Proofs.Typing.Grouping
import FieldView.Proofs.Typing.Idempotence
import FieldView.Proofs.Typing.Inlining
import FieldView.Proofs.Typing.Shifting
import FieldView.Proofs.Scope.Cursor
import FieldView.Proofs.Scope.Bounds
import FieldView.Proofs.Scope.Safety
import FieldView.Proofs.Callable.Wrapper
import FieldView.Proofs.Closure.Wrapped
import FieldView.Proofs.Invocation.Rewriting
import FieldView.Proofs.Typing.Failure
import FieldView.Proofs.Token.Acceptance
import FieldView.Proofs.Scope.Shape
import FieldView.Proofs.Scope.Recognition
import FieldView.Proofs.Text.Margin
import FieldView.Proofs.Capture.Resolution
import FieldView.Proofs.Token.Cutting
import FieldView.Proofs.Token.Lookahead
import FieldView.Proofs.Token.BlankLines
import FieldView.Proofs.Token.Tripled
import FieldView.Proofs.Capture.Declaration
import FieldView.Proofs.Text.Reading
import FieldView.Proofs.Ty.Printing
import FieldView.Proofs.Fencil.Printing
import FieldView.Proofs.Scope.Matching
import FieldView.Proofs.Token.Integers
import FieldView.Proofs.Token.Integers
import FieldView.Proofs.Text.Supply
