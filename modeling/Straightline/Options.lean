import Straightline.Error
import Straightline.Json.Decode
import Straightline.Json.Reader

/-!
# Compile options

The registers that may be allocated, the register that returned values go to, and whether lines of
assembly carry comments. Options are read from JSON, where a missing field takes its default.
-/
namespace Straightline

/-- How a program is compiled. -/
structure Options where
  registers : List String
  returnRegister : String
  comments : Bool
  deriving DecidableEq, Repr

namespace Options

def default : Options :=
  ⟨["t0", "t1", "t2", "t3", "t4", "t5", "t6"], "a0", true⟩

/-- What keeps options from being used. -/
def fault? (o : Options) : Option Misconfiguration :=
  if o.registers.isEmpty then some .noRegisters
  else if o.returnRegister.isEmpty then some .unnamedReturn
  else if o.registers.contains o.returnRegister then some (.returnAllocatable o.returnRegister)
  else none

def validate (o : Options) : Except Error Options :=
  match o.fault? with
  | some fault => .error (.configuration fault)
  | none => .ok o

/-- A field's value, or its default where the field is missing. -/
def fieldOr {α : Type} (f : Json → Option α) (fallback : α) : Option Json → Option α
  | none => some fallback
  | some v => f v

def ofJson? (v : Json) : Option Options := do
  match ← v.fields? ["registers", "return_register", "emit_comments"] with
  | [registers, returnRegister, comments] =>
    return ⟨← fieldOr (Json.list? Json.str?) default.registers registers,
      ← fieldOr Json.str? default.returnRegister returnRegister,
      ← fieldOr Json.bool? default.comments comments⟩
  | _ => none

def read (text : String) : Except Error Options :=
  match (Json.parse? text).bind ofJson? with
  | none => .error (.configuration .malformedJson)
  | some o => o.validate

end Options

end Straightline
