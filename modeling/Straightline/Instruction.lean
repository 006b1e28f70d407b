import Std.Data.TreeMap
import Straightline.Decimal

/-!
# Three-address instructions

Moves, sums, differences, products and returns over named variables and numbered temporaries.
Values are 64-bit words and arithmetic wraps.
-/
namespace Straightline

/-- A variable of the source, or a temporary. Temporaries are numbered without a bound, which agrees
with 32-bit numbers as long as there are less than `2 ^ 32` of them. -/
inductive Variable where
  | named (name : String)
  | temp (number : Nat)
  deriving DecidableEq, Repr

namespace Variable

def text : Variable → String
  | named name => name
  | temp n => "$" ++ toString n

def isTemp : Variable → Bool
  | named _ => false
  | temp _ => true

/-- Names come before temporaries. -/
def compare : Variable → Variable → Ordering
  | named a, named b => Ord.compare a b
  | named _, temp _ => .lt
  | temp _, named _ => .gt
  | temp m, temp n => Ord.compare m n

instance : Ord Variable := ⟨compare⟩

instance : Std.LawfulEqOrd Variable where
  compare_self := by
    rintro (a | m)
    · exact Std.ReflOrd.compare_self (a := a)
    · exact Std.ReflOrd.compare_self (a := m)
  eq_of_compare := by
    rintro (a | m) (b | n) h
    · exact congrArg named (Std.LawfulEqOrd.eq_of_compare h)
    · cases h
    · cases h
    · exact congrArg temp (Std.LawfulEqOrd.eq_of_compare h)

instance : Std.TransOrd Variable where
  eq_swap := by
    rintro (a | m) (b | n)
    · exact Std.OrientedOrd.eq_swap (a := a) (b := b)
    · rfl
    · rfl
    · exact Std.OrientedOrd.eq_swap (a := m) (b := n)
  isLE_trans := by
    rintro (a | m) (b | n) (c | k) hab hbc
    · exact Std.TransOrd.isLE_trans (a := a) (b := b) (c := c) hab hbc
    · rfl
    · cases hbc
    · rfl
    · cases hab
    · cases hab
    · cases hbc
    · exact Std.TransOrd.isLE_trans (a := m) (b := n) (c := k) hab hbc

end Variable

inductive Operand where
  | var (v : Variable)
  | imm (n : Int64)
  deriving DecidableEq, Repr

namespace Operand

def text : Operand → String
  | var v => v.text
  | imm n => Decimal.text n

def var? : Operand → Option Variable
  | var v => some v
  | imm _ => none

def imm? : Operand → Option Int64
  | var _ => none
  | imm n => some n

end Operand

inductive Operator where
  | add
  | sub
  | mul
  deriving DecidableEq, Repr

namespace Operator

def all : List Operator := [add, sub, mul]

def mnemonic : Operator → String
  | add => "ADD"
  | sub => "SUB"
  | mul => "MUL"

def ofMnemonic? (text : String) : Option Operator :=
  all.find? (·.mnemonic == text)

def label : Operator → String
  | add => "Add"
  | sub => "Sub"
  | mul => "Mul"

/-- Arithmetic modulo 2^64. -/
def apply : Operator → Int64 → Int64 → Int64
  | add, a, b => a + b
  | sub, a, b => a - b
  | mul, a, b => a * b

end Operator

/-- A three-address instruction. -/
inductive Instruction where
  | move (dest : Variable) (src : Operand)
  | binary (op : Operator) (dest : Variable) (lhs rhs : Operand)
  | ret (value : Operand)
  deriving DecidableEq, Repr

namespace Instruction

def mnemonic : Instruction → String
  | move .. => "MOV"
  | binary op .. => op.mnemonic
  | ret _ => "RET"

/-- The variable that is assigned. -/
def result? : Instruction → Option Variable
  | move dest _ => some dest
  | binary _ dest .. => some dest
  | ret _ => none

def operands : Instruction → List Operand
  | move _ src => [src]
  | binary _ _ lhs rhs => [lhs, rhs]
  | ret value => [value]

/-- The variable occurrences: the result, then the operands from left to right. -/
def occurrences (i : Instruction) : List Variable :=
  i.result?.toList ++ i.operands.filterMap Operand.var?

def isReturn : Instruction → Bool
  | ret _ => true
  | _ => false

/-- The mnemonic, then the result and the operands apart by commas. -/
def text (i : Instruction) : String :=
  let arguments := (i.result?.map Variable.text).toList ++ i.operands.map Operand.text
  i.mnemonic ++ " " ++ String.intercalate ", " arguments

end Instruction

end Straightline
