import Lox.CommandLine
import Lox.Environment
import Lox.Eval
import Lox.Host
import Lox.Host.Console
import Lox.Host.FileSystem
import Lox.Machine
import Lox.Main
import Lox.Native
import Lox.Native.Action
import Lox.Numeral.Notation
import Lox.Numeral.Reading
import Lox.Numeral.Shortest
import Lox.Operator
import Lox.Proofs.ClassInitializer
import Lox.Proofs.ControlFlow
import Lox.Proofs.CurrentScope
import Lox.Proofs.Cursor.Agreement
import Lox.Proofs.Cursor.EndMark
import Lox.Proofs.Cursor.Progress
import Lox.Proofs.Cursor.Reader
import Lox.Proofs.Cursor.Recovery
import Lox.Proofs.Environment.Maps
import Lox.Proofs.ErrorLines
import Lox.Proofs.Grammar
import Lox.Proofs.Grammar.Accepted
import Lox.Proofs.Grammar.Derivation
import Lox.Proofs.Grammar.Derived
import Lox.Proofs.Grammar.Disambiguation
import Lox.Proofs.Grammar.Lookahead
import Lox.Proofs.Grammar.Semicolon
import Lox.Proofs.Grammar.Unfinished
import Lox.Proofs.Journal.Agreement
import Lox.Proofs.Journal.Evaluator
import Lox.Proofs.Journal.Limited
import Lox.Proofs.Journal.Quiet
import Lox.Proofs.Lexical.Agreement
import Lox.Proofs.Lexical.Alike
import Lox.Proofs.Lexical.Calls
import Lox.Proofs.Lexical.Declarations
import Lox.Proofs.Lexical.Evaluator
import Lox.Proofs.Lexical.ForLoop
import Lox.Proofs.Lexical.ForSession
import Lox.Proofs.Lexical.Memory
import Lox.Proofs.Lexical.Session
import Lox.Proofs.Lexical.Simulation
import Lox.Proofs.Lexical.Steps
import Lox.Proofs.Lexical.World
import Lox.Proofs.Marked.Agreement
import Lox.Proofs.Marked.Calls
import Lox.Proofs.Marked.Evaluator
import Lox.Proofs.Marked.Memory
import Lox.Proofs.Marked.Session
import Lox.Proofs.Marked.Simulation
import Lox.Proofs.Native
import Lox.Proofs.Numeral.Notation
import Lox.Proofs.Numeral.Reading
import Lox.Proofs.Numeral.Shortest
import Lox.Proofs.Operator
import Lox.Proofs.Parser.Append
import Lox.Proofs.Parser.Contained
import Lox.Proofs.Parser.Fenced
import Lox.Proofs.Parser.Origin
import Lox.Proofs.Parser.Primitives
import Lox.Proofs.Parser.Reading
import Lox.Proofs.Parser.Shift
import Lox.Proofs.Printer.Legible
import Lox.Proofs.Printer.Reading
import Lox.Proofs.Printer.Text
import Lox.Proofs.Prompt
import Lox.Proofs.Raw.Agreement
import Lox.Proofs.Raw.Evaluator
import Lox.Proofs.Raw.Session
import Lox.Proofs.Raw.Tables
import Lox.Proofs.Receivers.Calls
import Lox.Proofs.Receivers.Dispatch
import Lox.Proofs.Receivers.Environments
import Lox.Proofs.Receivers.Evaluator
import Lox.Proofs.Receivers.Memory
import Lox.Proofs.Receivers.Runs
import Lox.Proofs.Receivers.Session
import Lox.Proofs.Receivers.Steps
import Lox.Proofs.Receivers.Values
import Lox.Proofs.Relabel.Below
import Lox.Proofs.Relabel.Eval
import Lox.Proofs.Relabel.Scoping
import Lox.Proofs.Relabel.Syntax
import Lox.Proofs.Relabel.Text
import Lox.Proofs.Relabel.Value
import Lox.Proofs.ScopeChain
import Lox.Proofs.Scoping.Alone
import Lox.Proofs.Scoping.Bound
import Lox.Proofs.Scoping.Cleared
import Lox.Proofs.Scoping.Judgments
import Lox.Proofs.Scoping.Mentions
import Lox.Proofs.Scoping.Names
import Lox.Proofs.Scoping.OwnInitializer
import Lox.Proofs.Scoping.Placement
import Lox.Proofs.Scoping.Places
import Lox.Proofs.Scoping.Reporting
import Lox.Proofs.Scoping.Stands
import Lox.Proofs.Scoping.Unread
import Lox.Proofs.Scoping.Unused
import Lox.Proofs.Scoping.Visits
import Lox.Proofs.Scoping.Written
import Lox.Proofs.Session.Compile
import Lox.Proofs.Session.Faultless
import Lox.Proofs.Session.Grounded
import Lox.Proofs.Session.Identities
import Lox.Proofs.Session.Joined
import Lox.Proofs.Session.Line
import Lox.Proofs.Session.Pieces
import Lox.Proofs.Session.Placed
import Lox.Proofs.Session.Rejection
import Lox.Proofs.Session.Repeated
import Lox.Proofs.Session.Steps
import Lox.Proofs.Session.Strict
import Lox.Proofs.Sexp
import Lox.Proofs.Source
import Lox.Proofs.Source.Ending
import Lox.Proofs.Source.Lines
import Lox.Proofs.Source.Partition
import Lox.Proofs.Steady
import Lox.Proofs.Super
import Lox.Proofs.Surroundings
import Lox.Proofs.This
import Lox.Proofs.Traced.Agreement
import Lox.Proofs.Traced.Evaluator
import Lox.Proofs.Traced.Faults
import Lox.Proofs.Watched
import Lox.Report
import Lox.RuntimeError
import Lox.Scoping
import Lox.Session
import Lox.Sexp
import Lox.Source
import Lox.Syntax
import Lox.Syntax.Parser
import Lox.Syntax.Printer
import Lox.Text.Blank
import Lox.Text.Hidden
import Lox.Text.Quoted
import Lox.Text.Utf8
import Lox.Token
import Lox.Value
import Lox.Proofs.Text.Utf8
import Lox.Proofs.Files.Characters
import Lox.Proofs.Files.Closing
import Lox.Proofs.Files.Journaled
import Lox.Proofs.Files.Lines
import Lox.Proofs.Files.Session
import Lox.Proofs.Inheritance.Evaluator
import Lox.Proofs.Inheritance.Session
