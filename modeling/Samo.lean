import Samo.Builtin
import Samo.Check.Basic
import Samo.Check.Call
import Samo.Check.Declaration
import Samo.Check.Paths
import Samo.Check.Problem
import Samo.Check.Program
import Samo.Check.Returns
import Samo.Check.Tally
import Samo.Check.Typing
import Samo.Checker
import Samo.CommandLine
import Samo.CommandLine.Flags
import Samo.Constant
import Samo.Diagnostic
import Samo.Files
import Samo.Log
import Samo.Position
import Samo.Proofs.Arguments
import Samo.Proofs.Engine
import Samo.Proofs.Step
import Samo.Proofs.Questions
import Samo.Repl
import Samo.Session
import Samo.Sources
import Samo.Symbol
import Samo.SymbolTable
import Samo.Syntax
import Samo.Syntax.Cursor
import Samo.Syntax.Fault
import Samo.Syntax.Node
import Samo.Syntax.Parser.Expr
import Samo.Syntax.Parser.Stmt
import Samo.Text.Blank
import Samo.Text.Braces
import Samo.Text.Lines
import Samo.Text.Literal
import Samo.Text.Quoted
import Samo.Text.Utf8
import Samo.Token
import Samo.Token.Lexer
import Samo.Ty
import Samo.Main
import Samo.Proofs.PolicyAgreement
import Samo.Proofs.ControlPaths
import Samo.Proofs.Overloads
import Samo.Proofs.Scopes
import Samo.Proofs.Typing
import Samo.Proofs.Passes
import Samo.Proofs.Visits
import Samo.Proofs.Acceptance
import Samo.Proofs.ReturnCompleteness
import Samo.Proofs.Demands
import Samo.Proofs.Returns
import Samo.Proofs.BlockPositions
import Samo.Proofs.TypeSoundness
import Samo.Proofs.DeclaredBefore
import Samo.Proofs.Folding
import Samo.Proofs.ZeroDivision
import Samo.Proofs.Wrapping
import Samo.Proofs.Grammar
import Samo.Proofs.Recovery
import Samo.Proofs.SyntaxErrors
import Samo.Proofs.RoundTrip
import Samo.Proofs.NoFalseRejections
import Samo.Proofs.TypeDecision
import Samo.Proofs.FoldedTypes
import Samo.Proofs.Detection
import Samo.Proofs.Additions
import Samo.Proofs.Shadowing
import Samo.Proofs.Mirror
import Samo.Proofs.Carrying
import Samo.Proofs.LineBreaks
import Samo.Proofs.Prolonging
import Samo.Proofs.Entries
import Samo.Proofs.LexingLines
import Samo.Proofs.Spots
import Samo.Proofs.Traces
import Samo.Proofs.PassedFunctions
import Samo.Proofs.LayoutFree
import Samo.Proofs.ArgumentOrder
import Samo.Proofs.PositionalCalls
import Samo.Proofs.TableOperations
import Samo.Proofs.Unwinding
import Samo.Proofs.Balance
import Samo.Proofs.QuietRuns
import Samo.Proofs.FlawReports
import Samo.Proofs.LexingPositions
import Samo.Proofs.Surroundings
import Samo.Proofs.JumpPlacement
import Samo.Proofs.Registration
import Samo.Proofs.ScopedVisits
import Samo.Proofs.PathQueries
import Samo.Proofs.RepeatedReturns
import Samo.Proofs.Bounds
import Samo.Proofs.Progress
import Samo.Proofs.Containment
import Samo.Proofs.Bookkeeping
import Samo.Proofs.BuiltinRegistry
import Samo.Proofs.DominantType
import Samo.Proofs.BraceCounts
import Samo.Proofs.TableGrowth
import Samo.Proofs.EntryWarnings
import Samo.Proofs.Inspection
import Samo.Proofs.Literals
