import LinkedJson.Address.Basic
import LinkedJson.Address.Error
import LinkedJson.Address.Host
import LinkedJson.Address.Path
import LinkedJson.Address.Percent
import LinkedJson.Address.Resolve
import LinkedJson.Address.Scheme
import LinkedJson.Analysis
import LinkedJson.DataDirectory
import LinkedJson.Definition
import LinkedJson.Diagnostic
import LinkedJson.Document
import LinkedJson.Grammar.Document
import LinkedJson.Grammar.Lexeme
import LinkedJson.Literal
import LinkedJson.Main
import LinkedJson.Node
import LinkedJson.Proofs.Edits
import LinkedJson.Proofs.Server.Handlers
import LinkedJson.Proofs.Server.History
import LinkedJson.Reading
import LinkedJson.Reference
import LinkedJson.Server.Encoding
import LinkedJson.Server.Method
import LinkedJson.Server.Params
import LinkedJson.Server.Session
import LinkedJson.Server.Shape.Basic
import LinkedJson.Server.Shape.Capability
import LinkedJson.Server.Shape.Document
import LinkedJson.Server.Shape.Request
import LinkedJson.Server.Task
import LinkedJson.Server.Transport
import LinkedJson.Server.Value
import LinkedJson.Span
import LinkedJson.Symbol.Declared
import LinkedJson.Symbol.Table
import LinkedJson.SyntaxError
import LinkedJson.Text.Blank
import LinkedJson.Text.Bytes
import LinkedJson.Text.Hex
import LinkedJson.Text.LineIndex
import LinkedJson.Text.Parts
import LinkedJson.Tree.Basic
import LinkedJson.Tree.Faults
import LinkedJson.Tree.Nodes
import LinkedJson.Workspace
import LinkedJson.Proofs.Text.Boundary
import LinkedJson.Proofs.Text.Lines
import LinkedJson.Proofs.Synchronisation
import LinkedJson.Proofs.Writing.Form
import LinkedJson.Proofs.Writing.Lexing
import LinkedJson.Proofs.Writing.Parsing
import LinkedJson.Proofs.Writing.Strings
import LinkedJson.Proofs.Tree.Bare
import LinkedJson.Proofs.Tree.Elements
import LinkedJson.Proofs.Grammar.Regular
import LinkedJson.Proofs.Writing.RoundTrip
import LinkedJson.Proofs.Symbol.Entries
import LinkedJson.Proofs.Symbol.Table
import LinkedJson.Proofs.Grammar.Values
import LinkedJson.Proofs.Definition
import LinkedJson.Proofs.Symbol.Pointer
import LinkedJson.Proofs.Symbol.Walk
import LinkedJson.Proofs.Grammar.Containers
import LinkedJson.Proofs.Symbol.Uniqueness
import LinkedJson.Proofs.Server.Overlap
import LinkedJson.Proofs.Server.Publication
import LinkedJson.Proofs.Tree.Reports
import LinkedJson.Proofs.Address.Fragment
import LinkedJson.Proofs.LocalReference
import LinkedJson.Proofs.Server.Reordering
import LinkedJson.Proofs.Text.Order
import LinkedJson.Proofs.Symbol.Records
import LinkedJson.Proofs.Tree.SourceOrder
import LinkedJson.Proofs.Symbol.Contents
import LinkedJson.Proofs.Text.Scan
import LinkedJson.Proofs.Checked
import LinkedJson.Proofs.Address.Escaping
import LinkedJson.Proofs.Literal
import LinkedJson.Proofs.Grammar.OpenContainers
import LinkedJson.Proofs.Unclosed
