import Straightline.NormalForm
import Straightline.Registers

/-!
# Assembly

RISC-V style code for programs in normal form, one line for each instruction. The result's register
is taken first, then those of the operands from left to right; a returned value goes to the return
register.
-/
namespace Straightline

inductive Code where
  | li (rd : String) (n : Int64)
  | mv (rd rs : String)
  | addi (rd rs : String) (n : Int64)
  | arithmetic (op : Operator) (rd rs1 rs2 : String)
  deriving DecidableEq, Repr

namespace Code

def opcode : Code → String
  | li .. => "li"
  | mv .. => "mv"
  | addi .. => "addi"
  | arithmetic .add .. => "add"
  | arithmetic .sub .. => "sub"
  | arithmetic .mul .. => "mul"

def operands : Code → List String
  | li rd n => [rd, Decimal.text n]
  | mv rd rs => [rd, rs]
  | addi rd rs n => [rd, rs, Decimal.text n]
  | arithmetic _ rd rs1 rs2 => [rd, rs1, rs2]

def text (c : Code) : String :=
  c.opcode ++ " " ++ String.intercalate ", " c.operands

end Code

/-- A line of code, with the instruction it was made from as a comment. -/
structure AssemblyLine where
  code : Code
  comment : Option String
  deriving DecidableEq, Repr

def AssemblyLine.text (l : AssemblyLine) : String :=
  match l.comment with
  | some comment => l.code.text ++ "\t\t# " ++ comment
  | none => l.code.text

structure Assembly where
  lines : List AssemblyLine
  deriving DecidableEq, Repr

/-- The section as it is written to a file. -/
def Assembly.render (a : Assembly) : String :=
  ".text\n" ++ String.join (a.lines.map fun l => "\t" ++ l.text ++ "\n")

/-- How code is generated. -/
structure Target where
  returnRegister : String
  comments : Bool
  deriving DecidableEq, Repr

namespace Target

variable (t : Target)

/-- Takes registers and makes code. -/
abbrev Generator := StateT Registers (Except Error)

def register (v : Variable) : Generator String := fun r => r.resolve v

/-- The register of an operand that has to be a variable. -/
def operandRegister (i : Instruction) : Operand → Generator String
  | .var v => register v
  | .imm _ => throw (.invariant (.immediateOperand i))

def code (i : Instruction) : Generator Code :=
  match i with
  | .move dest (.imm n) => do
    return .li (← register dest) n
  | .move dest (.var v) => do
    let rd ← register dest
    return .mv rd (← register v)
  | .binary .add dest lhs (.imm n) => do
    let rd ← register dest
    let rs ← operandRegister i lhs
    if fitsSum n then return .addi rd rs n
    else throw (.invariant (.immediateOutOfRange i))
  | .binary op dest lhs rhs => do
    let rd ← register dest
    let rs1 ← operandRegister i lhs
    let rs2 ← operandRegister i rhs
    return .arithmetic op rd rs1 rs2
  | .ret (.imm n) => return .li t.returnRegister n
  | .ret (.var v) => do
    return .mv t.returnRegister (← register v)

def line (i : Instruction) : Generator AssemblyLine := do
  return ⟨← t.code i, if t.comments then some i.text else none⟩

/-- The lines of instructions up to the first return, behind those already made, which come last
one first. -/
def linesOnto (done : List AssemblyLine) : List Instruction → Registers → Except Error Assembly
  | [], _ => .ok ⟨done.reverse⟩
  | i :: rest, r =>
    match t.line i r with
    | .error e => .error e
    | .ok (l, r) => if i.isReturn then .ok ⟨(l :: done).reverse⟩ else linesOnto (l :: done) rest r

def generate (instructions : List Instruction) (r : Registers) : Except Error Assembly :=
  t.linesOnto [] instructions r

end Target

end Straightline
