import Straightline.Grammar
import Straightline.Text.Quoted

/-!
# Parse symbols

What stands on a parse stack: a shifted token, or the head of a production that was reduced. The
text of one spells out a token's fields, the lexeme in quotes.
-/
namespace Straightline

/-- A symbol on a parse stack. -/
inductive ParseSymbol where
  | token (t : Token)
  | nonTerminal (head : NonTerminal)
  deriving DecidableEq, Repr

namespace ParseSymbol

def symbol : ParseSymbol → Symbol
  | token t => .terminal t.kind
  | nonTerminal head => .nonTerminal head

def token? : ParseSymbol → Option Token
  | token t => some t
  | nonTerminal _ => none

def text : ParseSymbol → String
  | token t =>
    "Token(Token \x7b kind: " ++ t.kind.label ++ ", lexeme: " ++ Quoted.text t.lexeme ++
      ", line: " ++ toString t.line ++ ", column: " ++ toString t.column ++ " \x7d)"
  | nonTerminal head => "NonTerminal(" ++ head.label ++ ")"

end ParseSymbol

end Straightline
