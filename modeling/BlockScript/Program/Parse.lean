import BlockScript.Stmt.Parse
import BlockScript.Token.Scan

/-!
# From source to program

A source is a program if it has neither lexical nor grammar errors. Tokens are parsed even if there
are lexical errors, so that all errors are reported together: by line, and on one line the lexical
ones first. Lexical errors alone are reported as they have been found.
-/

namespace BlockScript

/-- Errors of both kinds by line. Sorting is stable, so errors of one kind keep their order. -/
def mergeErrors (lexical : List LexError) (grammar : List ParseError) : List SyntaxError :=
  let errors := lexical.map SyntaxError.lexical ++ grammar.map SyntaxError.grammar
  errors.mergeSort fun a b ↦ a.line ≤ b.line

/-- The program of a source, or everything that is wrong with it. -/
def parse (source : String) : Except (List SyntaxError) Program :=
  let found := scan source
  match found.errors, parseTokens found.tokens with
  | [], .ok program => .ok program
  | lexical, .ok _ => .error (lexical.map .lexical)
  | lexical, .error grammar => .error (mergeErrors lexical grammar)

end BlockScript
