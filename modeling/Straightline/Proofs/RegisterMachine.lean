import Mathlib.Logic.Function.Basic
import Straightline.Assembly
import Straightline.Proofs.Decimals

/-!
# The register machine

Assembly is run on named registers that hold 64-bit words. A line is executed from its texts alone:
the opcode says what is done, the operands are taken by their positions, and immediates are read
from their decimal texts. What a line does is what its code says (`execute_code`), since reading
takes the text of a word back to the word (`read?_text`).
-/
namespace Straightline

abbrev RegisterFile := String → Int64

namespace RegisterFile

/-- The line with a given opcode and operands, executed. Other lines stop the machine. -/
def execute (regs : RegisterFile) (opcode : String) (operands : List String) :
    Option RegisterFile :=
  match opcode, operands with
  | "li", [rd, n] => (Decimal.read? n).map fun n => Function.update regs rd n
  | "mv", [rd, rs] => some (Function.update regs rd (regs rs))
  | "addi", [rd, rs, n] => (Decimal.read? n).map fun n => Function.update regs rd (regs rs + n)
  | "add", [rd, rs1, rs2] => some (Function.update regs rd (regs rs1 + regs rs2))
  | "sub", [rd, rs1, rs2] => some (Function.update regs rd (regs rs1 - regs rs2))
  | "mul", [rd, rs1, rs2] => some (Function.update regs rd (regs rs1 * regs rs2))
  | _, _ => none

/-- What code does to the registers. -/
def after (regs : RegisterFile) : Code → RegisterFile
  | .li rd n => Function.update regs rd n
  | .mv rd rs => Function.update regs rd (regs rs)
  | .addi rd rs n => Function.update regs rd (regs rs + n)
  | .arithmetic op rd rs1 rs2 => Function.update regs rd (op.apply (regs rs1) (regs rs2))

theorem execute_code (regs : RegisterFile) (c : Code) :
    regs.execute c.opcode c.operands = some (regs.after c) := by
  cases c with
  | li rd n => simp [execute, after, Code.opcode, Code.operands, Decimal.read?_text]
  | mv rd rs => simp [execute, after, Code.opcode, Code.operands]
  | addi rd rs n => simp [execute, after, Code.opcode, Code.operands, Decimal.read?_text]
  | arithmetic op rd rs1 rs2 =>
    cases op <;> simp [execute, after, Code.opcode, Code.operands, Operator.apply]

end RegisterFile

namespace Assembly

def run (a : Assembly) (regs : RegisterFile) : Option RegisterFile :=
  a.lines.foldlM (fun regs l => regs.execute l.code.opcode l.code.operands) regs

@[simp] theorem run_nil (regs : RegisterFile) : run ⟨[]⟩ regs = some regs := rfl

@[simp] theorem run_cons (l : AssemblyLine) (lines : List AssemblyLine) (regs : RegisterFile) :
    run ⟨l :: lines⟩ regs = run ⟨lines⟩ (regs.after l.code) := by
  simp [run, RegisterFile.execute_code]

end Assembly

end Straightline
