import Straightline.Program

/-!
# Normal form

The shape that code can be generated for: a sum has a variable on its left and a variable or a
small immediate on its right, differences and products have variables only, and nothing follows the
first return. Two immediates are folded into a move, a sum's immediate goes to the right, and any
other immediate is first moved into a fresh temporary.
-/
namespace Straightline

/-- The immediates that a sum can hold: twelve bits with sign. -/
def fitsSum (n : Int64) : Bool :=
  -2048 ≤ n.toInt && n.toInt ≤ 2047

/-- Normal code so far, the last instruction first, with what was done for it. -/
structure Normalizing where
  code : List Instruction
  nextTemp : Nat
  folded : Nat
  materialized : Nat
  deriving DecidableEq, Repr

namespace Normalizing

def emit (s : Normalizing) (i : Instruction) : Normalizing :=
  { s with code := i :: s.code }

/-- An operand as a variable: an immediate is moved into a fresh temporary. -/
def materialize (s : Normalizing) : Operand → Operand × Normalizing
  | .var v => (.var v, s)
  | .imm n =>
    (.var (.temp s.nextTemp),
      { s.emit (.move (.temp s.nextTemp) (.imm n)) with
        nextTemp := s.nextTemp + 1, materialized := s.materialized + 1 })

/-- A sum whose left operand is a variable. -/
def sum (s : Normalizing) (dest : Variable) (lhs rhs : Operand) : Normalizing :=
  match rhs with
  | .imm n =>
    if fitsSum n then s.emit (.binary .add dest lhs (.imm n))
    else
      let (rhs, s) := s.materialize (.imm n)
      s.emit (.binary .add dest lhs rhs)
  | .var v => s.emit (.binary .add dest lhs (.var v))

def add (s : Normalizing) : Instruction → Normalizing
  | .binary op dest (.imm a) (.imm b) =>
    { s.emit (.move dest (.imm (op.apply a b))) with folded := s.folded + 1 }
  | .binary .add dest (.imm a) (.var v) => s.sum dest (.var v) (.imm a)
  | .binary .add dest lhs rhs => s.sum dest lhs rhs
  | .binary op dest lhs rhs =>
    let (lhs, s) := s.materialize lhs
    let (rhs, s) := s.materialize rhs
    s.emit (.binary op dest lhs rhs)
  | i => s.emit i

/-- Adds instructions up to the first return. -/
def addAll (s : Normalizing) : List Instruction → Normalizing
  | [] => s
  | i :: rest => if i.isReturn then s.add i else (s.add i).addAll rest

end Normalizing

/-- A pass over one program after another, with the numbers of the last one. -/
structure Normalizer where
  nextTemp : Nat
  folded : Nat
  materialized : Nat
  deriving DecidableEq, Repr

namespace Normalizer

def fresh : Normalizer := ⟨0, 0, 0⟩

/-- The numbers start anew with each program. -/
def normalize (p : Program) : StateM Normalizer Program := fun n =>
  let n := { n with nextTemp := p.nextTemp, folded := 0, materialized := 0 }
  let s := Normalizing.addAll ⟨[], n.nextTemp, n.folded, n.materialized⟩ p.instructions
  (⟨s.code.reverse, s.nextTemp⟩, ⟨s.nextTemp, s.folded, s.materialized⟩)

end Normalizer

/-- A program in normal form, with the number of instructions folded and of immediates moved into
temporaries. -/
structure Normalized where
  program : Program
  folded : Nat
  materialized : Nat
  deriving DecidableEq, Repr

def Program.normalize (p : Program) : Normalized :=
  let (program, n) := Normalizer.normalize p .fresh
  ⟨program, n.folded, n.materialized⟩

end Straightline
