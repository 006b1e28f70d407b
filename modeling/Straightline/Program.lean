import Straightline.Error

/-!
# Three-address programs

A program is a list of instructions and the number of its next unused temporary. Evaluation runs
through the instructions with wrapping arithmetic and ends at the first return; reading a variable
that was never set is an error.
-/
namespace Straightline

/-- Instructions, and the number of the next unused temporary. -/
structure Program where
  instructions : List Instruction
  -- a 32-bit counter is the same below `2 ^ 32` temporaries
  nextTemp : Nat
  deriving DecidableEq, Repr

/-- The values of the variables that are set. -/
abbrev Environment := Std.TreeMap Variable Int64

namespace Operand

/-- The value of an operand; a named variable that is not set is looked up among the inputs. -/
def value (inputs : String → Option Int64) (env : Environment) : Operand → Except Error Int64
  | imm n => .ok n
  | var v =>
    let input := match v with
      | .named name => inputs name
      | .temp _ => none
    match env[v]? <|> input with
    | some n => .ok n
    | none => .error (.invariant (.unsetVariable v))

end Operand

namespace Program

/-- The program whose next temporary is above all of its own. -/
def ofInstructions (instructions : List Instruction) : Program :=
  let above : Variable → Nat
    | .named _ => 0
    | .temp n => n + 1
  ⟨instructions, (instructions.flatMap (·.occurrences)).foldl (fun n v => max n (above v)) 0⟩

/-- The value that instructions return, if they return. -/
def run (inputs : String → Option Int64) :
    Environment → List Instruction → Except Error (Option Int64)
  | _, [] => .ok none
  | env, .move dest src :: rest =>
    match src.value inputs env with
    | .error e => .error e
    | .ok n => run inputs (env.insert dest n) rest
  | env, .binary op dest lhs rhs :: rest =>
    match lhs.value inputs env with
    | .error e => .error e
    | .ok a =>
      match rhs.value inputs env with
      | .error e => .error e
      | .ok b => run inputs (env.insert dest (op.apply a b)) rest
  | env, .ret value :: _ => (value.value inputs env).map some

def evaluate (p : Program) (inputs : String → Option Int64) : Except Error (Option Int64) :=
  run inputs ∅ p.instructions

def text (p : Program) : String :=
  String.join (p.instructions.map fun i => i.text ++ "\n")

/-- The instructions, one a line, with their positions in four digits. -/
def listing (p : Program) : String :=
  String.join (p.instructions.mapIdx fun n i => Decimal.padded '0' 4 n ++ ": " ++ i.text ++ "\n")

end Program

end Straightline
