import SqlQuery.Main
import SqlQuery.Tree.Walk
import SqlQuery.Proofs.Atom.Expression
import SqlQuery.Proofs.Atom.Query
import SqlQuery.Proofs.Lexeme.Inversion
import SqlQuery.Proofs.Parameter.Written
import SqlQuery.Proofs.Reading.Begin
import SqlQuery.Proofs.Reading.Limit
import SqlQuery.Proofs.Reading.Query
import SqlQuery.Proofs.Reading.Tree
import SqlQuery.Proofs.Scanning.Expression
import SqlQuery.Proofs.Scanning.Operator
import SqlQuery.Proofs.Layout.Comment
import SqlQuery.Proofs.Layout.Gap
import SqlQuery.Proofs.Layout.Text
import SqlQuery.Proofs.Parsed.Suffix
import SqlQuery.Proofs.Parsed.Operand
import SqlQuery.Proofs.Parsed.Clause
import SqlQuery.Proofs.Parsed.Query
import SqlQuery.Proofs.Parsed.Grouping
import SqlQuery.Proofs.Parsed.Shape
import SqlQuery.Proofs.Scanning.Call
import SqlQuery.Proofs.Scanning.Value
import SqlQuery.Proofs.Scanning.Clause
import SqlQuery.Proofs.Written.Writer
import SqlQuery.Proofs.RoundTrip.Tree
import SqlQuery.Proofs.RoundTrip.Expression
import SqlQuery.Proofs.RoundTrip.Query
import SqlQuery.Proofs.Agreement.Session
import SqlQuery.Proofs.Spacing.Text
import SqlQuery.Proofs.Atom.Statement
import SqlQuery.Proofs.Agreement.Resume
import SqlQuery.Proofs.Session.State
import SqlQuery.Proofs.Nesting.Bracket
import SqlQuery.Proofs.Written.Step
import SqlQuery.Proofs.Written.Parsed
import SqlQuery.Proofs.Written.Parameter
import SqlQuery.Proofs.Written.Outcome
import SqlQuery.Proofs.RoundTrip.Name
import SqlQuery.Proofs.RoundTrip.String
import SqlQuery.Proofs.RoundTrip.Number
import SqlQuery.Proofs.Casing.Statement
import SqlQuery.Proofs.Ending.Text
import SqlQuery.Proofs.Fault.Exact
import SqlQuery.Proofs.Written.Erase
import SqlQuery.Proofs.Tail.Semicolon
import SqlQuery.Proofs.Tail.Membership
import SqlQuery.Proofs.Tree.Told
import SqlQuery.Proofs.Nesting.Length
import SqlQuery.Proofs.RoundTrip.Dialect
