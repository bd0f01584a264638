import BlockScript.Main
import BlockScript.Proofs.Expr.Grammar
import BlockScript.Proofs.Outcome
import BlockScript.Proofs.Token.Taking
import BlockScript.Proofs.Expr.Recognition
import BlockScript.Proofs.Stmt.Grammar
import BlockScript.Proofs.Stmt.Recovery
import BlockScript.Proofs.Stmt.Rules
import BlockScript.Proofs.Stmt.Recognition
import BlockScript.Proofs.Segment.Split
import BlockScript.Proofs.Token.Scan
import BlockScript.Proofs.Expr.Lines
import BlockScript.Proofs.Program.Seam
import BlockScript.Proofs.Environment
import BlockScript.Proofs.Machine
import BlockScript.Proofs.Stmt.Scopes
import BlockScript.Proofs.Stmt.Jumps
import BlockScript.Proofs.Environment.Stack
import BlockScript.Proofs.Segment.Longest
import BlockScript.Proofs.Token.Lexemes
import BlockScript.Proofs.Token.Lockstep
import BlockScript.Proofs.Expr.Lockstep
import BlockScript.Proofs.Stmt.Lockstep
import BlockScript.Proofs.Program.Progress
import BlockScript.Proofs.Program.Layout
import BlockScript.Proofs.Program.Unmentioned
import BlockScript.Proofs.Stmt.WellScoped
import BlockScript.Proofs.Program.FullOutput
import BlockScript.Proofs.Expr.Finding
import BlockScript.Proofs.Stmt.Finding
import BlockScript.Proofs.Program.ErrorOrder
import BlockScript.Proofs.Input
import BlockScript.Proofs.Stmt.Visits
import BlockScript.Proofs.Program.Streams
import BlockScript.Proofs.Shell
import BlockScript.Proofs.Program.Halting
import BlockScript.Proofs.Program.ErrorLines
import BlockScript.Proofs.Expr.Levels
import BlockScript.Proofs.Stmt.Resuming
import BlockScript.Proofs.Program.MissingSemicolon
import BlockScript.Proofs.Token.Border
import BlockScript.Proofs.Expr.Border
import BlockScript.Proofs.Stmt.Border
import BlockScript.Proofs.Program.BlockRecovery
import BlockScript.Proofs.Stmt.Skipped
import BlockScript.Proofs.Token.Braces
import BlockScript.Proofs.Stmt.Braces
import BlockScript.Proofs.Program.ErrorPlaces
import BlockScript.Proofs.Stmt.Targets
import BlockScript.Proofs.Expr.Connectives
import BlockScript.Proofs.Stmt.Fuel
import BlockScript.Proofs.Stmt.LoopForms
import BlockScript.Proofs.Expr.Chains
import BlockScript.Proofs.Machine.Beside
import BlockScript.Proofs.Environment.SpareScope
import BlockScript.Proofs.Stmt.SpareScope
import BlockScript.Proofs.Stmt.Increment
import BlockScript.Proofs.Token.Lines
import BlockScript.Proofs.Token.Spacing
import BlockScript.Proofs.Number.Bits
import BlockScript.Proofs.Number.Count
import BlockScript.Proofs.Number.Nearest
import BlockScript.Proofs.Number.Printing
import BlockScript.Proofs.Machine.Reading
import BlockScript.Proofs.Number.RoundTrip
import BlockScript.Proofs.Number.Unpacked
import BlockScript.Proofs.Number.Sum
import BlockScript.Proofs.Number.Comparison
import BlockScript.Proofs.Program.ReadBack
import BlockScript.Proofs.Value.Repetition
