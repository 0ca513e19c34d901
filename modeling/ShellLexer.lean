import ShellLexer.Character
import ShellLexer.Token.Operator
import ShellLexer.TokenStream
import ShellLexer.Buffer
import ShellLexer.Lexed
import ShellLexer.Dump
import ShellLexer.ReadLoop
import ShellLexer.CommandLine
import ShellLexer.Main
import ShellLexer.Proofs.Scan.Reading
import ShellLexer.Proofs.Scan.Transport
import ShellLexer.Proofs.Buffer.Encoded
import ShellLexer.Proofs.Scan.EndFaults
import ShellLexer.Proofs.Reconstruct.Piece
import ShellLexer.Proofs.Reconstruct.Pending
import ShellLexer.Proofs.Reconstruct.Account
import ShellLexer.Proofs.Boundary
import ShellLexer.Proofs.Grammar.Derivation
import ShellLexer.Proofs.Grammar.Reading
import ShellLexer.Proofs.Grammar.Derived
import ShellLexer.Proofs.Template.Braced
import ShellLexer.Proofs.Template.ReadBack
import ShellLexer.Proofs.Scan.Transition
import ShellLexer.Proofs.Growth
import ShellLexer.Proofs.Nesting.Flatten
import ShellLexer.Proofs.Nesting.Limit
import ShellLexer.Proofs.Nesting.Carried
import ShellLexer.Proofs.Stream.Bracket
import ShellLexer.Proofs.Stream.Place
import ShellLexer.Proofs.Stream.WellQuoted
import ShellLexer.Proofs.ReadLoop.Encoding
import ShellLexer.Proofs.ReadLoop.Segments
import ShellLexer.Proofs.ReadLoop.Output
import ShellLexer.Proofs.ReadLoop.Calls
import ShellLexer.Proofs.ReadLoop.Script
import ShellLexer.Proofs.Template.Parameter
import ShellLexer.Proofs.Longest.Lexeme
import ShellLexer.Proofs.Sink
import ShellLexer.Proofs.Longest.Match
import ShellLexer.Proofs.Diagnostics.Order
import ShellLexer.Proofs.Diagnostics.Cause
import ShellLexer.Proofs.Stream.Valid
import ShellLexer.Proofs.Stream.Maximal
import ShellLexer.Proofs.Nesting.Tower
import ShellLexer.Proofs.OutputSize
import ShellLexer.Proofs.Diagnostics.Lines
import ShellLexer.Proofs.Dump.SelfDelimiting
import ShellLexer.Proofs.Diagnostics.Message
import ShellLexer.Proofs.Dump.Text
import ShellLexer.Proofs.Dump.Json
import ShellLexer.Proofs.Descent.Moves
import ShellLexer.Proofs.Descent.Progress
import ShellLexer.Proofs.Descent.Upcoming
import ShellLexer.Proofs.Descent.Outside
import ShellLexer.Proofs.Descent.Inside
import ShellLexer.Proofs.Descent.Agreement
import ShellLexer.Proofs.Buffer.Capacity
import ShellLexer.Proofs.Buffer.Decoding
import ShellLexer.Proofs.Buffer.Contents
