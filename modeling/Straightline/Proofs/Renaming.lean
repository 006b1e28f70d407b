import Mathlib.Logic.Function.Basic
import Straightline.Proofs.NormalAccounts
import Straightline.Proofs.Translation

/-!
# Instructions with their variables renamed

Code is numbered from a given temporary on. To start with a higher number renumbers the temporaries
of the code of a tree (`codeAll_add`); normal code of renamed instructions is renamed normal code,
where the renaming follows the temporaries that are added (`normalAll_rename`).
-/
namespace Straightline

def Variable.renumber (g : Nat → Nat) : Variable → Variable
  | named name => named name
  | temp n => temp (g n)

theorem Variable.renumber_injective {g : Nat → Nat} (h : Function.Injective g) :
    Function.Injective (renumber g) := by
  intro v w same
  cases v with
  | named x => cases w <;> simp_all [renumber]
  | temp m =>
    cases w with
    | named y => cases same
    | temp n =>
      have equal : g m = g n := temp.inj same
      rw [h equal]

def Operand.rename (f : Variable → Variable) : Operand → Operand
  | var v => var (f v)
  | imm n => imm n

namespace Instruction

variable {f : Variable → Variable} {i : Instruction} {code : List Instruction} {next next' : Nat}

def rename (f : Variable → Variable) : Instruction → Instruction
  | move dest src => move (f dest) (src.rename f)
  | binary op dest lhs rhs => binary op (f dest) (lhs.rename f) (rhs.rename f)
  | ret value => ret (value.rename f)

@[simp] theorem isReturn_rename (f : Variable → Variable) (i : Instruction) :
    (i.rename f).isReturn = i.isReturn := by
  cases i <;> rfl

theorem occurrences_rename (f : Variable → Variable) (i : Instruction) :
    (i.rename f).occurrences = i.occurrences.map f := by
  cases i with
  | move dest src => cases src <;> rfl
  | binary op dest lhs rhs => cases lhs <;> cases rhs <;> rfl
  | ret value => cases value <;> rfl

theorem flatMap_occurrences_rename (f : Variable → Variable) (code : List Instruction) :
    (code.map (rename f)).flatMap (·.occurrences) = (code.flatMap (·.occurrences)).map f := by
  simp [List.flatMap_map, List.map_flatMap, occurrences_rename]

theorem rename_of_fixed (fixed : ∀ v ∈ i.occurrences, f v = v) : i.rename f = i := by
  have operand {o : Operand} (reads : ∀ v, o = .var v → f v = v) : o.rename f = o := by
    cases o with
    | imm n => rfl
    | var v => exact congrArg Operand.var (reads v rfl)
  have set {v : Variable} (h : i.result? = some v) : f v = v :=
    fixed v (mem_occurrences.mpr (Or.inl h))
  have read {o : Operand} (h : o ∈ i.operands) : o.rename f = o := by
    apply operand
    rintro v rfl
    exact fixed v (mem_occurrences.mpr (Or.inr h))
  cases i with
  | move dest src => rw [rename, set rfl, read (by simp [operands])]
  | binary op dest lhs rhs =>
    rw [rename, set rfl, read (by simp [operands]), read (by simp [operands])]
  | ret value => rw [rename, read (by simp [operands])]

theorem normal_rename (h : f (.temp next) = .temp next') (i : Instruction) :
    (i.rename f).normal next' = (i.normal next).map (rename f) := by
  have sum (dest v : Variable) (n : Int64) :
      normalSum next' (f dest) (f v) n = (normalSum next dest v n).map (rename f) := by
    unfold normalSum
    split <;> simp [rename, Operand.rename, h]
  cases i with
  | move dest src => rfl
  | ret value => rfl
  | binary op dest lhs rhs =>
    cases lhs with
    | imm a =>
      cases rhs with
      | imm b => rfl
      | var v =>
        cases op with
        | add => exact sum dest v a
        | sub | mul => simp [normal, rename, Operand.rename, h]
    | var w =>
      cases rhs with
      | var v => cases op <;> rfl
      | imm b =>
        cases op with
        | add => exact sum dest w b
        | sub | mul => simp [normal, rename, Operand.rename, h]

theorem added_rename (h : f (.temp next) = .temp next') (i : Instruction) :
    (i.rename f).added = i.added := by
  unfold added
  rw [← length_normal next', ← length_normal next i, normal_rename h, List.length_map]

theorem normalAll_rename (h : ∀ k, f (.temp (next + k)) = .temp (next' + k))
    (code : List Instruction) :
    normalAll next' (code.map (rename f)) = (normalAll next code).map (rename f) := by
  induction code generalizing next next' with
  | nil => rfl
  | cons i rest ih =>
    have first : f (.temp next) = .temp next' := h 0
    rw [List.map_cons, normalAll, normalAll, normal_rename first, isReturn_rename]
    split
    · simp
    · rw [added_rename first, List.map_append, ih]
      intro k
      rw [Nat.add_assoc, Nat.add_assoc]
      exact h (i.added + k)

end Instruction

/-! ### Trees numbered from a higher temporary on -/

/-- The variables with their temporaries numbered higher. -/
abbrev Variable.raise (n : Nat) : Variable → Variable :=
  renumber (· + n)

theorem Expression.operand_add {m : NonTerminal} (e : Expression m) (next n : Nat) :
    e.operand (next + n) = (e.operand next).rename (Variable.raise n) := by
  induction e with
  | arithmetic op lhs sign rhs _ _ =>
    simp only [operand, Operand.rename, Variable.renumber, Operand.var.injEq, Variable.temp.injEq]
    omega
  | ofTerm inner ih => exact ih
  | ofFactor inner ih => exact ih
  | parenthesized left inner right ih => exact ih
  | name v => rfl
  | literal l => rfl

theorem Expression.code_add {m : NonTerminal} (e : Expression m) (next n : Nat) :
    e.code (next + n) = (e.code next).map (Instruction.rename (Variable.raise n)) := by
  induction e generalizing next with
  | arithmetic op lhs sign rhs ihl ihr =>
    have right : next + n + lhs.temporaries = next + lhs.temporaries + n := by omega
    have result : next + lhs.temporaries + n + rhs.temporaries =
        next + lhs.temporaries + rhs.temporaries + n := by omega
    simp only [code, List.map_append, List.map_cons, List.map_nil, Instruction.rename, right,
      result, ihl, ihr, operand_add, Variable.renumber]
  | ofTerm inner ih => exact ih next
  | ofFactor inner ih => exact ih next
  | parenthesized left inner right ih => exact ih next
  | name v => rfl
  | literal l => rfl

namespace Statement

theorem code_add (s : Statement) (next n : Nat) :
    s.code (next + n) = (s.code next).map (Instruction.rename (Variable.raise n)) := by
  cases s with
  | declaration type name => rfl
  | assignment name equals value =>
    simp [code, Instruction.rename, value.code_add, value.operand_add, Variable.renumber]
  | returning word value =>
    simp [code, Instruction.rename, value.code_add, value.operand_add]

/-- The code of statements from a higher temporary on is their code with higher temporaries. -/
theorem codeAll_add (l : List Statement) (next n : Nat) :
    codeAll (next + n) l = (codeAll next l).map (Instruction.rename (Variable.raise n)) := by
  induction l generalizing next with
  | nil => rfl
  | cons s rest ih =>
    have behind : next + n + s.temporaries = next + s.temporaries + n := by omega
    rw [codeAll, codeAll, List.map_append, code_add, behind, ih]

end Statement

end Straightline
