import Straightline.Error
import Straightline.Lexeme
import Straightline.Symbols

/-!
# Scanning

A scanner walks through the pieces of a source text, makes tokens of those that are not blank and
enters identifiers into the symbol table. A stray character or a number that is no word stops it;
it keeps the tokens it has, and the next scan goes on behind the offending piece.
-/
namespace Straightline

/-- A walk through a source text: the pieces ahead, the place where they start, and the tokens so
far, the last one first. -/
structure Scanner where
  rest : List Lexeme
  line : Nat
  column : Nat
  done : List Token
  deriving Repr

/-- The kind of token that a piece makes; blanks make none. -/
def Lexeme.kind? (l : Lexeme) (line column : Nat) : Except Error (Option Kind) :=
  match l with
  | newline | blank _ => .ok none
  | mark kind _ => .ok (some kind)
  | word text => .ok (some ((Kind.keyword? text).getD .identifier))
  | digits text =>
    if (Decimal.read? text).isSome then .ok (some .intConst) else .error (.invalidInteger text line)
  | stray c => .error (.unexpectedCharacter c line column)

namespace Scanner

def ofSource (source : String) : Scanner :=
  ⟨Lexeme.split source.toList, 1, 1, []⟩

/-- The place behind a piece. -/
def after (l : Lexeme) (line column : Nat) : Nat × Nat :=
  match l with
  | .newline => (line + 1, 1)
  | _ => (line, column + l.text.length)

/-- Scanning from given pieces on. -/
def scanFrom (line column : Nat) (done : List Token) (symbols : Symbols) :
    List Lexeme → EStateM.Result Error (Scanner × Symbols) (List Token)
  | [] => .ok ((⟨.endOfInput, "", line, column⟩ :: done).reverse) (⟨[], line, column, []⟩, symbols)
  | l :: rest =>
    let (line', column') := after l line column
    match l.kind? line column with
    | .error e => .error e (⟨rest, line', column', done⟩, symbols)
    | .ok none => scanFrom line' column' done symbols rest
    | .ok (some kind) =>
      let symbols := if kind = .identifier then symbols.add l.text else symbols
      scanFrom line' column' (⟨kind, l.text, line, column⟩ :: done) symbols rest

/-- The tokens up to the end of the source, ended by an end token. -/
def scan : EStateM Error (Scanner × Symbols) (List Token) := fun (s, symbols) =>
  scanFrom s.line s.column s.done symbols s.rest

end Scanner

end Straightline
