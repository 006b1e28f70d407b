import Straightline.Program

/-!
# Evaluation, instruction by instruction

When evaluation of a list of instructions succeeds, so does reading the operands of the first one,
and the rest goes on from the environment with its result. Without inputs, the variables that can
be read are those that are set.
-/
namespace Straightline

variable {inputs : String → Option Int64} {env : Environment}

theorem Operand.value_of_getElem? {v : Variable} {n : Int64} (h : env[v]? = some n) :
    (Operand.var v).value inputs env = .ok n := by
  simp [Operand.value, h]

@[simp] theorem Operand.value_insert_self (env : Environment) (v : Variable) (n : Int64) :
    (Operand.var v).value inputs (env.insert v n) = .ok n :=
  value_of_getElem? (by simp)

theorem Operand.value_eq_ok_iff {v : Variable} {n : Int64} :
    (Operand.var v).value (fun _ => none) env = .ok n ↔ env[v]? = some n := by
  refine ⟨fun h => ?_, value_of_getElem?⟩
  cases hv : env[v]? with
  | none => cases v <;> simp [Operand.value, hv] at h
  | some m => simpa [value_of_getElem? hv] using h

namespace Program

variable {rest : List Instruction} {x : Option Int64}

theorem run_move_eq_ok {dest : Variable} {src : Operand} :
    run inputs env (.move dest src :: rest) = .ok x ↔
      ∃ n, src.value inputs env = .ok n ∧ run inputs (env.insert dest n) rest = .ok x := by
  rw [run]
  cases src.value inputs env <;> simp

theorem run_binary_eq_ok {op : Operator} {dest : Variable} {lhs rhs : Operand} :
    run inputs env (.binary op dest lhs rhs :: rest) = .ok x ↔
      ∃ a b, lhs.value inputs env = .ok a ∧ rhs.value inputs env = .ok b ∧
        run inputs (env.insert dest (op.apply a b)) rest = .ok x := by
  rw [run]
  cases lhs.value inputs env with
  | error e => simp
  | ok a => cases rhs.value inputs env <;> simp

theorem run_ret_eq_ok {value : Operand} :
    run inputs env (.ret value :: rest) = .ok x ↔
      ∃ n, value.value inputs env = .ok n ∧ x = some n := by
  rw [run]
  cases value.value inputs env <;> simp [Except.map, eq_comm]

end Program

end Straightline
