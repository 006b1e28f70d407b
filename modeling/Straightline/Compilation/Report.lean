import Straightline.Compilation
import Straightline.Json.Printer
import Straightline.Table.Json

/-!
# Reports

All that a compilation makes, as one JSON document.
-/
namespace Straightline

def Token.toJson (t : Token) : Json :=
  .record
    [("kind", t.kind.toJson), ("lexeme", .text t.lexeme), ("line", .nat t.line),
      ("column", .nat t.column)]

def Json.word (n : Int64) : Json :=
  .int n.toInt

def SymbolEntry.toJson (e : SymbolEntry) : Json :=
  .record
    [("name", .text e.name), ("ty", .ofOption (fun ty => .text ty.label) e.ty),
      ("value", .ofOption .word e.value)]

def Symbols.toJson (s : Symbols) : Json :=
  .record [("entries", .record (s.toList.map fun e => (e.name, e.toJson)))]

def Variable.toJson : Variable → Json
  | named name => .record [("Named", .text name)]
  | temp n => .record [("Temp", .nat n)]

def Operand.toJson : Operand → Json
  | var v => .record [("Variable", v.toJson)]
  | imm n => .record [("Immediate", .word n)]

def Instruction.toJson : Instruction → Json
  | move dest src => .record [("Move", .record [("dest", dest.toJson), ("src", src.toJson)])]
  | binary op dest lhs rhs =>
    .record
      [(op.label, .record [("dest", dest.toJson), ("lhs", lhs.toJson), ("rhs", rhs.toJson)])]
  | ret value => .record [("Return", .record [("value", value.toJson)])]

def Program.toJson (p : Program) : Json :=
  .record
    [("instructions", .arr (p.instructions.map (·.toJson))), ("next_temp", .nat p.nextTemp)]

def AssemblyLine.toJson (l : AssemblyLine) : Json :=
  .record
    [("op", .text l.code.opcode), ("operands", .arr (l.code.operands.map .text)),
      ("comment", .ofOption .text l.comment)]

def Assembly.toJson (a : Assembly) : Json :=
  .record [("lines", .arr (a.lines.map (·.toJson)))]

namespace Compilation

def toJson (c : Compilation) : Json :=
  .record
    [("tokens", .arr (c.tokens.map (·.toJson))), ("symbols", c.symbols.toJson),
      ("ir", c.program.toJson), ("normalized", c.normalized.toJson),
      ("assembly", c.assembly.toJson), ("warnings", .arr (c.warnings.map .text))]

def report (c : Compilation) : String :=
  c.toJson.render

end Compilation

end Straightline
