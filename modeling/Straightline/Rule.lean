import Straightline.Instruction

/-!
# The rules of straight-line programs

The productions of the reference grammar by what they mean. Observers that give a meaning
to reductions go by a production's number, and know no number outside these.
-/
namespace Straightline

/-- What a reduction builds. -/
inductive Rule where
  | program
  | moreStatements
  | lastStatement
  | declaration
  | intType
  | assignment
  | returning
  | arithmetic (op : Operator)
  | exprOfTerm
  | termOfFactor
  | parenthesized
  | name
  | literal
  deriving DecidableEq, Repr

/-- The rule of a production of the reference grammar; the start rule has none. -/
def Rule.ofIndex? : Nat → Option Rule
  | 1 => some program
  | 2 => some moreStatements
  | 3 => some lastStatement
  | 4 => some declaration
  | 5 => some intType
  | 6 => some assignment
  | 7 => some returning
  | 8 => some (arithmetic .add)
  | 9 => some (arithmetic .sub)
  | 10 => some exprOfTerm
  | 11 => some (arithmetic .mul)
  | 12 => some termOfFactor
  | 13 => some parenthesized
  | 14 => some name
  | 15 => some literal
  | _ => none

end Straightline
