import Straightline.Machine
import Straightline.Rule
import Straightline.Symbols
import Straightline.AttributeStack

/-!
# Declared types

The observer that enters declared types into the symbol table and reports the uses of identifiers
that are not declared. The attribute of a symbol is the type of what it
derives, where that has one.
-/
namespace Straightline

/-- The state of the typing observer: its stack, its findings, the last one first, and whether it
was given a symbol table. -/
structure Typing where
  stack : AttributeStack Ty
  findings : List Error
  bound : Bool
  deriving DecidableEq, Repr

namespace Typing

def empty : Typing := ⟨.empty, [], false⟩

def diagnostics (t : Typing) : List Error :=
  t.findings.reverse

/-- What the observer does: it works on the symbol table and on its own state. -/
abbrev Action := EStateM Error (Symbols × Typing)

def onStack {α : Type} (x : EStateM Error (AttributeStack Ty) α) : Action α := fun (symbols, t) =>
  match x t.stack with
  | .ok a stack => .ok a (symbols, { t with stack })
  | .error e stack => .error e (symbols, { t with stack })

def push (symbol : ParseSymbol) (ty : Option Ty) : Action Unit := fun (symbols, t) =>
  .ok () (symbols, { t with stack := t.stack.push ⟨symbol, ty⟩ })

def pop : Action (Attributed Ty) :=
  onStack AttributeStack.pop

def discard (n : Nat) : Action Unit :=
  onStack (AttributeStack.discard n)

def report (e : Error) : Action Unit := fun (symbols, t) =>
  .ok () (symbols, { t with findings := e :: t.findings })

/-- The symbol table, once there is one. -/
def symbols : Action Symbols := fun (symbols, t) =>
  if t.bound then .ok symbols (symbols, t)
  else .error (.invariant .noSymbolTable) (symbols, t)

def setSymbols (symbols : Symbols) : Action Unit := fun (_, t) =>
  .ok () (symbols, t)

def token (v : Attributed Ty) : Action Token :=
  match v.symbol.token? with
  | some token => pure token
  | none => throw (.invariant (.notIdentifier v.symbol))

/-- Gives an identifier its type. -/
def declare (id : Token) (ty : Option Ty) : Action Unit := do
  match (← symbols).setType? id.lexeme ty with
  | some changed => setSymbols changed
  | none => report (.unknownIdentifier id.lexeme id.line id.column)

/-- The declared type of an identifier. -/
def lookup (id : Token) : Action (Option Ty) := do
  let ty := (← symbols).typeOf? id.lexeme
  if ty.isNone then
    report (.undeclaredIdentifier id.lexeme id.line id.column)
  return ty

/-- Takes the body of a production off the stack; the type of what it builds. -/
def reduce (p : Production) : Action (Option Ty) :=
  match Rule.ofIndex? p.index with
  | none => throw (.unknownProduction p.index)
  | some .declaration => do
    let id ← pop
    let ty := (← pop).value
    declare (← token id) ty
    return ty
  | some .intType | some .literal => do
    discard p.body.length
    return some .int
  | some .assignment | some .name => do
    discard (p.body.length - 1)
    lookup (← token (← pop))
  | some .returning => do
    let inner ← pop
    discard 1
    return inner.value
  | some .parenthesized => do
    discard 1
    let inner ← pop
    discard 1
    return inner.value
  | some .program | some .moreStatements | some .lastStatement | some (.arithmetic _)
  | some .exprOfTerm | some .termOfFactor =>
    if p.body.isEmpty then return none
    else do
      discard (p.body.length - 1)
      return (← pop).value

def observe : Observer (Symbols × Typing)
  | .shift _ token => push (.token token) none
  | .reduce _ p => do
    let ty ← reduce p
    push (.nonTerminal p.head) ty
  | .accept _ => fun (symbols, t) => .ok () (symbols, { t with stack := .empty })

end Typing

end Straightline
