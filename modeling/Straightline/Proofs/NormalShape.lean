import Straightline.Proofs.Normalization

/-!
# The shape of normal code

What code can be generated for, as a condition on instructions, and the proof that normal code meets
it (`normalForm_normalAll`). `Becomes` lists what one instruction can become; normal code names no
variable that the instructions do not name (`named_of_mem_normalAll`).
-/
namespace Straightline

namespace Instruction

variable {i j : Instruction} {next : Nat} {front rest code instructions : List Instruction}

/-- Instructions that a line of code can be made of: the left operand of a sum is a variable and the
right one a variable or a small immediate, those of differences and products are variables. -/
def isNormal : Instruction → Bool
  | binary .add _ (.var _) (.imm n) => fitsSum n
  | binary _ _ (.var _) (.var _) => true
  | binary .. => false
  | move .. | ret _ => true

/-- Normal instructions, none of them behind the first return. -/
def NormalForm : List Instruction → Prop
  | [] => True
  | i :: rest => i.isNormal = true ∧ if i.isReturn then rest = [] else NormalForm rest

instance : DecidablePred NormalForm := go
where
  go : (instructions : List Instruction) → Decidable (NormalForm instructions)
    | [] => .isTrue trivial
    | i :: rest =>
      have := go rest
      inferInstanceAs (Decidable (_ ∧ if i.isReturn then rest = [] else NormalForm rest))

theorem normalForm_append (goesOn : ∀ i ∈ front, i.isNormal = true ∧ i.isReturn = false)
    (h : NormalForm rest) : NormalForm (front ++ rest) := by
  induction front with
  | nil => exact h
  | cons i front ih =>
    obtain ⟨normal, noReturn⟩ := goesOn i List.mem_cons_self
    refine ⟨normal, ?_⟩
    rw [if_neg (by simp [noReturn])]
    exact ih fun j hj => goesOn j (List.mem_cons_of_mem i hj)

/-- All that an instruction can become: what is normal stays, two immediates are folded, a sum's
immediate goes to its right, and any other immediate is first moved into a temporary. -/
inductive Becomes (next : Nat) : Instruction → List Instruction → Prop where
  | kept {i : Instruction} : i.isNormal = true → Becomes next i [i]
  | folded {op : Operator} {dest : Variable} {a b : Int64} :
    Becomes next (binary op dest (.imm a) (.imm b)) [move dest (.imm (op.apply a b))]
  | turned {dest v : Variable} {n : Int64} : fitsSum n →
    Becomes next (binary .add dest (.imm n) (.var v)) [binary .add dest (.var v) (.imm n)]
  | turnedMoved {dest v : Variable} {n : Int64} :
    Becomes next (binary .add dest (.imm n) (.var v))
      [move (.temp next) (.imm n), binary .add dest (.var v) (.var (.temp next))]
  | leftMoved {op : Operator} {dest v : Variable} {n : Int64} :
    Becomes next (binary op dest (.imm n) (.var v))
      [move (.temp next) (.imm n), binary op dest (.var (.temp next)) (.var v)]
  | rightMoved {op : Operator} {dest v : Variable} {n : Int64} :
    Becomes next (binary op dest (.var v) (.imm n))
      [move (.temp next) (.imm n), binary op dest (.var v) (.var (.temp next))]

theorem becomes_normal (next : Nat) (i : Instruction) : Becomes next i (i.normal next) := by
  cases i with
  | move dest src => exact .kept rfl
  | ret value => exact .kept rfl
  | binary op dest lhs rhs =>
    cases lhs with
    | imm a =>
      cases rhs with
      | imm b => exact .folded
      | var v =>
        cases op with
        | add =>
          by_cases fits : fitsSum a = true
          · simpa [normal, normalSum, fits] using .turned fits
          · simpa [normal, normalSum, fits] using .turnedMoved
        | sub => exact .leftMoved
        | mul => exact .leftMoved
    | var w =>
      cases rhs with
      | var v => cases op <;> exact .kept rfl
      | imm b =>
        cases op with
        | add =>
          by_cases fits : fitsSum b = true
          · simpa [normal, normalSum, fits] using .kept fits
          · simpa [normal, normalSum, fits] using .rightMoved
        | sub => exact .rightMoved
        | mul => exact .rightMoved

namespace Becomes

theorem isNormal (h : Becomes next i code) : ∀ j ∈ code, j.isNormal = true := by
  cases h with
  | kept normal => simpa using normal
  | folded => simp [Instruction.isNormal]
  | turned fits => simpa [Instruction.isNormal] using fits
  | turnedMoved => simp [Instruction.isNormal]
  | @leftMoved op => cases op <;> simp [Instruction.isNormal]
  | @rightMoved op => cases op <;> simp [Instruction.isNormal]

theorem isReturn (h : Becomes next i code) : ∀ j ∈ code, j.isReturn = i.isReturn := by
  cases h <;> simp [Instruction.isReturn]

theorem code_of_isReturn (h : Becomes next i code) (returns : i.isReturn = true) : code = [i] := by
  cases h with
  | kept => rfl
  | _ => cases returns

theorem named (h : Becomes next i code) {x : String}
    (occurs : .named x ∈ code.flatMap (·.occurrences)) : .named x ∈ i.occurrences := by
  cases h with
  | kept => simpa using occurs
  | folded | turned | turnedMoved | leftMoved | rightMoved =>
    simpa [occurrences, result?, operands, Operand.var?, eq_comm] using occurs

end Becomes

/-- Normal code has the shape that code is generated for. -/
theorem normalForm_normalAll (next : Nat) (instructions : List Instruction) :
    NormalForm (normalAll next instructions) := by
  induction instructions generalizing next with
  | nil => trivial
  | cons i rest ih =>
    have becomes := becomes_normal next i
    rw [normalAll]
    by_cases returns : i.isReturn = true
    · have normal := becomes.isNormal i
      rw [becomes.code_of_isReturn returns, if_pos returns]
      rw [becomes.code_of_isReturn returns] at normal
      exact ⟨normal List.mem_cons_self, by simp [returns]⟩
    · rw [if_neg returns]
      refine normalForm_append ?_ (ih _)
      intro j hj
      have goesOn := becomes.isReturn j hj
      exact ⟨becomes.isNormal j hj, by simpa [goesOn] using returns⟩

theorem named_of_mem_normalAll {x : String}
    (h : .named x ∈ (normalAll next instructions).flatMap (·.occurrences)) :
    .named x ∈ instructions.flatMap (·.occurrences) := by
  induction instructions generalizing next with
  | nil => exact h
  | cons i rest ih =>
    rw [normalAll, List.flatMap_append, List.mem_append] at h
    rw [List.flatMap_cons, List.mem_append]
    rcases h with h | h
    · exact Or.inl ((becomes_normal next i).named h)
    · by_cases returns : i.isReturn = true
      · rw [if_pos returns] at h
        cases h
      · rw [if_neg returns] at h
        exact Or.inr (ih h)

end Instruction

end Straightline
