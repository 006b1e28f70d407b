/-!
# Tokens

The terminals of the language, in the order in which tables list them, and the tokens that a
source text is made of. A kind has two spellings: its name in grammars and dumps, and its label in
messages and files.
-/
namespace Straightline

inductive Kind where
  | identifier
  | intConst
  | intWord
  | returnWord
  | assign
  | comma
  | semicolon
  | plus
  | minus
  | star
  | slash
  | leftParen
  | rightParen
  | endOfInput
  deriving DecidableEq, Hashable, Repr

namespace Kind

/-- Every kind, in table order. -/
def all : List Kind :=
  [identifier, intConst, intWord, returnWord, assign, comma, semicolon, plus, minus, star, slash,
    leftParen, rightParen, endOfInput]

theorem mem_all (k : Kind) : k ∈ all := by
  cases k <;> decide

/-- The spelling in grammars and dumps. -/
def name : Kind → String
  | identifier => "id"
  | intConst => "IntConst"
  | intWord => "int"
  | returnWord => "return"
  | assign => "="
  | comma => ","
  | semicolon => "Semicolon"
  | plus => "+"
  | minus => "-"
  | star => "*"
  | slash => "/"
  | leftParen => "("
  | rightParen => ")"
  | endOfInput => "$"

/-- The spelling in messages and files. -/
def label : Kind → String
  | identifier => "Identifier"
  | intConst => "IntConst"
  | intWord => "Int"
  | returnWord => "Return"
  | assign => "Assign"
  | comma => "Comma"
  | semicolon => "Semicolon"
  | plus => "Plus"
  | minus => "Minus"
  | star => "Star"
  | slash => "Slash"
  | leftParen => "LeftParen"
  | rightParen => "RightParen"
  | endOfInput => "Eof"

def ofLabel? (text : String) : Option Kind :=
  all.find? (·.label == text)

/-- The reserved words. -/
def keyword? (word : String) : Option Kind :=
  if word = "int" then some intWord
  else if word = "return" then some returnWord
  else none

/-- The punctuation marks. -/
def mark? : Char → Option Kind
  | '=' => some assign
  | ',' => some comma
  | ';' => some semicolon
  | '+' => some plus
  | '-' => some minus
  | '*' => some star
  | '/' => some slash
  | '(' => some leftParen
  | ')' => some rightParen
  | _ => none

end Kind

inductive Category where
  | identifier
  | integerLiteral
  | keyword
  | punctuation
  | endOfInput
  deriving DecidableEq, Repr

namespace Category

def label : Category → String
  | identifier => "Identifier"
  | integerLiteral => "IntegerLiteral"
  | keyword => "Keyword"
  | punctuation => "Punctuation"
  | endOfInput => "EndOfInput"

end Category

def Kind.category : Kind → Category
  | .identifier => .identifier
  | .intConst => .integerLiteral
  | .intWord | .returnWord => .keyword
  | .endOfInput => .endOfInput
  | _ => .punctuation

/-- A terminal as it stands in a source text: lines and columns count from one. -/
structure Token where
  kind : Kind
  lexeme : String
  line : Nat
  column : Nat
  deriving DecidableEq, Repr

namespace Token

/-- Identifiers and literals show their lexeme, other tokens only their kind. -/
def text (t : Token) : String :=
  match t.kind with
  | .identifier | .intConst => s!"({t.kind.name}, {t.lexeme})"
  | _ => s!"({t.kind.name},)"

def listing (ts : List Token) : String :=
  String.join (ts.map fun t => t.text ++ "\n")

end Token

end Straightline
