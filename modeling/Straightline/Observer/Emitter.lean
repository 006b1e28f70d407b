import Straightline.Machine
import Straightline.Program
import Straightline.Rule
import Straightline.AttributeStack

/-!
# Emitting three-address code

The observer that emits instructions. Names and literals stand for themselves; each arithmetic
reduction emits one instruction into the next temporary, each assignment a move, each return a
return.
-/
namespace Straightline

/-- The state of the emitting observer: its stack, the instructions so far, the last one first,
and the number of the next temporary. -/
structure Emitter where
  stack : AttributeStack Operand
  emitted : List Instruction
  -- a 32-bit counter is the same below `2 ^ 32` temporaries
  nextTemp : Nat
  deriving DecidableEq, Repr

namespace Emitter

def empty : Emitter := ⟨.empty, [], 0⟩

def instructions (t : Emitter) : List Instruction :=
  t.emitted.reverse

def program (t : Emitter) : Program :=
  ⟨t.instructions, t.nextTemp⟩

abbrev Action := EStateM Error Emitter

def onStack {α : Type} (x : EStateM Error (AttributeStack Operand) α) : Action α := fun t =>
  match x t.stack with
  | .ok a stack => .ok a { t with stack }
  | .error e stack => .error e { t with stack }

def push (symbol : ParseSymbol) (value : Option Operand) : Action Unit := fun t =>
  .ok () { t with stack := t.stack.push ⟨symbol, value⟩ }

def discard (n : Nat) : Action Unit :=
  onStack (AttributeStack.discard n)

/-- Pops a value that has to be there. -/
def popOperand : Action Operand := do
  let v ← onStack AttributeStack.pop
  match v.value with
  | some value => return value
  | none => throw (.invariant (.noValue v.symbol))

def newTemporary : Action Variable := fun t =>
  .ok (.temp t.nextTemp) { t with nextTemp := t.nextTemp + 1 }

def emit (i : Instruction) : Action Unit := fun t =>
  .ok () { t with emitted := i :: t.emitted }

theorem emit_eq (i : Instruction) (t : Emitter) :
    ∃ u, emit i t = .ok () u ∧ u.instructions = t.instructions ++ [i] ∧
      u.stack = t.stack ∧ u.nextTemp = t.nextTemp :=
  ⟨_, rfl, by simp [instructions], rfl, rfl⟩

/-- The value of a shifted token: literals and identifiers have one. -/
def tokenValue (token : Token) : Action (Option Operand) :=
  match token.kind.category with
  | .integerLiteral =>
    match Decimal.read? token.lexeme with
    | some n => return some (.imm n)
    | none => throw (.invalidInteger token.lexeme token.line)
  | .identifier => return some (.var (.named token.lexeme))
  | _ => return none

/-- Takes the body of a production off the stack and emits its code; the value of what it
builds. -/
def reduce (p : Production) : Action (Option Operand) :=
  match Rule.ofIndex? p.index with
  | none => throw (.unknownProduction p.index)
  | some .assignment => do
    let value ← popOperand
    discard 1
    match ← popOperand with
    | .var target => emit (.move target value)
    | .imm n => throw (.invariant (.immediateTarget n))
    return none
  | some .returning => do
    let value ← popOperand
    discard 1
    emit (.ret value)
    return none
  | some (.arithmetic op) => do
    let rhs ← popOperand
    discard 1
    let lhs ← popOperand
    let dest ← newTemporary
    emit (.binary op dest lhs rhs)
    return some (.var dest)
  | some .exprOfTerm | some .termOfFactor | some .name | some .literal => do
    return some (← popOperand)
  | some .parenthesized => do
    discard 1
    let value ← popOperand
    discard 1
    return some value
  | some .program | some .moreStatements | some .lastStatement | some .declaration
  | some .intType => do
    discard p.body.length
    return none

def observe : Observer Emitter
  | .shift _ token => do
    let value ← tokenValue token
    push (.token token) value
  | .reduce _ p => do
    let value ← reduce p
    push (.nonTerminal p.head) value
  | .accept _ => fun t => .ok () { t with stack := .empty }

end Emitter

end Straightline
