import Kotoba.Command.Flags
import Kotoba.Command.Repl
import Kotoba.Command.Run
import Kotoba.Config.Basic
import Kotoba.Config.Decode
import Kotoba.Config.Search
import Kotoba.Console
import Kotoba.Decimal.Binary64
import Kotoba.Decimal.Integer
import Kotoba.Decimal.Layout
import Kotoba.Decimal.Shortest
import Kotoba.Diagnostic.Basic
import Kotoba.Diagnostic.Report
import Kotoba.File.Disk
import Kotoba.File.Handle
import Kotoba.File.Path
import Kotoba.File.Stream
import Kotoba.Log
import Kotoba.Machine.Call
import Kotoba.Machine.Expression
import Kotoba.Machine.Fault
import Kotoba.Machine.Interpret
import Kotoba.Machine.Operation
import Kotoba.Machine.Recall
import Kotoba.Machine.State
import Kotoba.Machine.Statement
import Kotoba.Main
import Kotoba.Scope.Arena
import Kotoba.Scope.Digest
import Kotoba.Scope.Symbol
import Kotoba.Script
import Kotoba.Session
import Kotoba.Source.Span
import Kotoba.Step
import Kotoba.Syntax.Export
import Kotoba.Syntax.Expression
import Kotoba.Syntax.Parser
import Kotoba.Syntax.Statement
import Kotoba.Syntax.Tree
import Kotoba.Text.Base64
import Kotoba.Text.Blank
import Kotoba.Text.Bytes
import Kotoba.Text.Letter
import Kotoba.Text.Printable
import Kotoba.Text.Quoted
import Kotoba.Text.Utf8
import Kotoba.Token.Basic
import Kotoba.Token.Scan
import Kotoba.Value.Basic
import Kotoba.Value.Text
import Kotoba.Yaml.Cursor
import Kotoba.Yaml.Document
import Kotoba.Yaml.Fault
import Kotoba.Yaml.Meaning
import Kotoba.Yaml.Node
import Kotoba.Yaml.Property
import Kotoba.Yaml.Scalar.Block
import Kotoba.Yaml.Scalar.Gap
import Kotoba.Yaml.Scalar.Plain
import Kotoba.Yaml.Scalar.Quoted
import Kotoba.Yaml.Source
import Kotoba.Yaml.Stream
import Kotoba.Yaml.Timestamp
import Kotoba.Yaml.Token
import Kotoba.Proofs.Command.Repl
import Kotoba.Proofs.Config.Nearest
import Kotoba.Proofs.Diagnostic.Bounds
import Kotoba.Proofs.Diagnostic.Excerpt
import Kotoba.Proofs.File.Path
import Kotoba.Proofs.File.Reading
import Kotoba.Proofs.File.Writing
import Kotoba.Proofs.Machine.Act
import Kotoba.Proofs.Machine.Again
import Kotoba.Proofs.Machine.Arithmetic
import Kotoba.Proofs.Machine.Blame
import Kotoba.Proofs.Machine.Ceiling
import Kotoba.Proofs.Machine.Character
import Kotoba.Proofs.Machine.Concrete
import Kotoba.Proofs.Machine.Finite
import Kotoba.Proofs.Machine.Forgetful
import Kotoba.Proofs.Machine.Jump
import Kotoba.Proofs.Machine.Key
import Kotoba.Proofs.Machine.Local
import Kotoba.Proofs.Machine.Ordinary
import Kotoba.Proofs.Machine.Piecewise
import Kotoba.Proofs.Machine.Range
import Kotoba.Proofs.Machine.Repetition
import Kotoba.Proofs.Machine.Served
import Kotoba.Proofs.Machine.Slot
import Kotoba.Proofs.Machine.Sound
import Kotoba.Proofs.Machine.Split
import Kotoba.Proofs.Machine.Stack
import Kotoba.Proofs.Machine.Still
import Kotoba.Proofs.Machine.Stocked
import Kotoba.Proofs.Machine.Transparent
import Kotoba.Proofs.Scope.Canonical
import Kotoba.Proofs.Scope.Decode
import Kotoba.Proofs.Syntax.Access
import Kotoba.Proofs.Syntax.Export
import Kotoba.Proofs.Syntax.Extent
import Kotoba.Proofs.Syntax.Form
import Kotoba.Proofs.Syntax.Nested
import Kotoba.Proofs.Syntax.Print
import Kotoba.Proofs.Syntax.Progress
import Kotoba.Proofs.Token.Number
import Kotoba.Proofs.Token.Place
import Kotoba.Proofs.Token.Reader
