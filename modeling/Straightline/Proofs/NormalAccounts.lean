import Mathlib.Algebra.Ring.Nat
import Straightline.Proofs.NormalShape

/-!
# What normal form adds and keeps

The code of a program in normal form is the code up to the first return, each instruction rewritten
in its place and setting what it set before, with moves into new temporaries in between. The numbers
that a pass reports are those of the folded instructions and of these moves, whatever it was used for
before, and a second pass finds nothing to do.
-/
namespace Straightline

namespace Instruction

variable {i j : Instruction} {next last bound : Nat}
variable {code code' left left' instructions : List Instruction}

/-- The instructions up to the first return, with it. -/
def upToReturn : List Instruction → List Instruction
  | [] => []
  | i :: rest => i :: if i.isReturn then [] else upToReturn rest

/-- Arithmetic with two immediates. -/
def isFoldable : Instruction → Bool
  | binary _ _ (.imm _) (.imm _) => true
  | _ => false

def addedAll (instructions : List Instruction) : Nat :=
  ((upToReturn instructions).map added).sum

theorem addedAll_cons (i : Instruction) (rest : List Instruction) :
    addedAll (i :: rest) = i.added + if i.isReturn then 0 else addedAll rest := by
  unfold addedAll
  rw [upToReturn]
  split <;> simp

theorem mem_of_mem_upToReturn (h : i ∈ upToReturn instructions) : i ∈ instructions := by
  induction instructions with
  | nil => exact h
  | cons j rest ih =>
    rw [upToReturn] at h
    rcases List.mem_cons.mp h with rfl | h
    · exact List.mem_cons_self
    · split at h
      · cases h
      · exact List.mem_cons_of_mem j (ih h)

/-! ### Moves in between -/

/-- Code that is other code with moves in between: of immediates into the temporaries from `next` up
to `last`, in this order. -/
inductive Interleaved : Nat → List Instruction → List Instruction → Nat → Prop where
  | nil {next : Nat} : Interleaved next [] [] next
  | keep {next last : Nat} {code left : List Instruction} (i : Instruction) :
    Interleaved next code left last → Interleaved next (i :: code) (i :: left) last
  | insert {next last : Nat} {code left : List Instruction} (n : Int64) :
    Interleaved (next + 1) code left last →
      Interleaved next (move (.temp next) (.imm n) :: code) left last

theorem Interleaved.append {middle : Nat} (first : Interleaved next code left middle)
    (second : Interleaved middle code' left' last) :
    Interleaved next (code ++ code') (left ++ left') last := by
  induction first with
  | nil => exact second
  | keep i _ ih => exact .keep i (ih second)
  | insert n _ ih => exact .insert n (ih second)

theorem Interleaved.length (h : Interleaved next code left last) :
    code.length + next = left.length + last := by
  induction h with
  | nil => rfl
  | keep i _ ih =>
    simp only [List.length_cons]
    omega
  | insert n _ ih =>
    simp only [List.length_cons]
    omega

def movesFrom (bound : Nat) : Instruction → Bool
  | move (.temp n) _ => bound ≤ n
  | _ => false

theorem Interleaved.filter (h : Interleaved next code left last) (le : bound ≤ next)
    (others : ∀ i ∈ left, i.movesFrom bound = false) :
    code.filter (fun i => !i.movesFrom bound) = left := by
  induction h with
  | nil => rfl
  | keep i _ ih =>
    rw [List.filter_cons, others i List.mem_cons_self,
      ih le fun j hj => others j (List.mem_cons_of_mem i hj)]
    rfl
  | insert n _ ih =>
    rw [List.filter_cons, movesFrom, ih (by omega) others]
    simp [le]

/-- An instruction becomes one that sets the same, and a move in front of it for each temporary that
is added. -/
theorem Becomes.interleaved (h : Becomes next i code) :
    ∃ j, Interleaved next code [j] (next + (code.length - 1)) ∧ j.result? = i.result? := by
  cases h with
  | kept => exact ⟨i, .keep i .nil, rfl⟩
  | folded => exact ⟨_, .keep _ .nil, rfl⟩
  | turned => exact ⟨_, .keep _ .nil, rfl⟩
  | turnedMoved => exact ⟨_, .insert _ (.keep _ .nil), rfl⟩
  | leftMoved => exact ⟨_, .insert _ (.keep _ .nil), rfl⟩
  | rightMoved => exact ⟨_, .insert _ (.keep _ .nil), rfl⟩

theorem length_normal (next : Nat) (i : Instruction) :
    (i.normal next).length = (i.normal 0).length := by
  unfold normal normalSum
  split
  · rfl
  · split <;> rfl
  · split <;> rfl
  · rfl
  · rfl
  · rfl

theorem interleaved_normal (next : Nat) (i : Instruction) :
    ∃ j, Interleaved next (i.normal next) [j] (next + i.added) ∧ j.result? = i.result? := by
  unfold added
  rw [← length_normal next i]
  exact (becomes_normal next i).interleaved

theorem interleaved_normalAll (next : Nat) (instructions : List Instruction) :
    ∃ left, Interleaved next (normalAll next instructions) left (next + addedAll instructions) ∧
      left.map result? = (upToReturn instructions).map result? := by
  induction instructions generalizing next with
  | nil => exact ⟨[], .nil, rfl⟩
  | cons i rest ih =>
    obtain ⟨j, first, same⟩ := interleaved_normal next i
    rw [normalAll, upToReturn, addedAll_cons]
    by_cases returns : i.isReturn = true
    · refine ⟨[j], ?_, by simp [returns, same]⟩
      simpa [returns] using first
    · obtain ⟨left, further, results⟩ := ih (next + i.added)
      rw [if_neg returns, if_neg returns, if_neg returns, ← Nat.add_assoc]
      exact ⟨j :: left, first.append further, by simp [same, results]⟩

/-! ### Code that is normal already -/

theorem normal_of_isNormal (next : Nat) (h : i.isNormal = true) : i.normal next = [i] := by
  unfold isNormal at h
  split at h
  · simp [normal, normalSum, h]
  · rename_i op _ _ _
    cases op <;> rfl
  · cases h
  · rfl
  · rfl

theorem isFoldable_of_isNormal (h : i.isNormal = true) : i.isFoldable = false := by
  unfold isNormal at h
  split at h
  · rfl
  · rfl
  · cases h
  · rfl
  · rfl

theorem normalForm_cases (h : NormalForm instructions) :
    upToReturn instructions = instructions ∧ ∀ i ∈ instructions, i.isNormal = true := by
  induction instructions with
  | nil => exact ⟨rfl, by simp⟩
  | cons i rest ih =>
    obtain ⟨normal, further⟩ := h
    by_cases returns : i.isReturn = true
    · rw [if_pos returns] at further
      subst further
      exact ⟨by rw [upToReturn, if_pos returns], by simpa using normal⟩
    · rw [if_neg returns] at further
      obtain ⟨whole, all⟩ := ih further
      rw [upToReturn, if_neg returns, whole]
      exact ⟨rfl, by simpa [normal] using all⟩

theorem normalAll_of_normalForm (next : Nat) (h : NormalForm instructions) :
    normalAll next instructions = instructions := by
  induction instructions generalizing next with
  | nil => rfl
  | cons i rest ih =>
    obtain ⟨normal, further⟩ := h
    rw [normalAll, normal_of_isNormal next normal]
    by_cases returns : i.isReturn = true
    · rw [if_pos returns] at further
      rw [if_pos returns, further]
      rfl
    · rw [if_neg returns] at further
      rw [if_neg returns, ih _ further]
      rfl

theorem addedAll_of_normalForm (h : NormalForm instructions) : addedAll instructions = 0 := by
  obtain ⟨left, interleaved, results⟩ := interleaved_normalAll 0 instructions
  have length := interleaved.length
  have results := congrArg List.length results
  rw [normalAll_of_normalForm 0 h] at length
  rw [(normalForm_cases h).1, List.length_map, List.length_map] at results
  omega

theorem countP_isFoldable_of_normalForm (h : NormalForm instructions) :
    (upToReturn instructions).countP isFoldable = 0 := by
  obtain ⟨whole, all⟩ := normalForm_cases h
  rw [whole, List.countP_eq_zero]
  intro i hi
  simp [isFoldable_of_isNormal (all i hi)]

end Instruction

/-! ### The numbers of a pass -/

namespace Normalizing

open Instruction

theorem counts_sum (s : Normalizing) (dest v : Variable) (n : Int64) :
    (s.sum dest (.var v) (.imm n)).materialized =
        s.materialized + ((normalSum 0 dest v n).length - 1) ∧
      (s.sum dest (.var v) (.imm n)).folded = s.folded := by
  simp only [sum, normalSum]
  by_cases fits : fitsSum n
  · simp [fits, emit]
  · simp [fits, emit, materialize]

theorem counts_add (s : Normalizing) (i : Instruction) :
    (s.add i).materialized = s.materialized + i.added ∧
      (s.add i).folded = s.folded + if i.isFoldable then 1 else 0 := by
  cases i with
  | move dest src => exact ⟨rfl, rfl⟩
  | ret value => exact ⟨rfl, rfl⟩
  | binary op dest lhs rhs =>
    cases lhs with
    | imm a =>
      cases rhs with
      | imm b => exact ⟨rfl, rfl⟩
      | var v =>
        cases op with
        | add => exact s.counts_sum dest v a
        | sub => exact ⟨rfl, rfl⟩
        | mul => exact ⟨rfl, rfl⟩
    | var w =>
      cases rhs with
      | imm b =>
        cases op with
        | add => exact s.counts_sum dest w b
        | sub => exact ⟨rfl, rfl⟩
        | mul => exact ⟨rfl, rfl⟩
      | var v => cases op <;> exact ⟨rfl, rfl⟩

theorem counts_addAll (s : Normalizing) (instructions : List Instruction) :
    (s.addAll instructions).nextTemp = s.nextTemp + addedAll instructions ∧
      (s.addAll instructions).materialized = s.materialized + addedAll instructions ∧
      (s.addAll instructions).folded =
        s.folded + (upToReturn instructions).countP isFoldable := by
  induction instructions generalizing s with
  | nil => exact ⟨rfl, rfl, rfl⟩
  | cons i rest ih =>
    have temporaries := (s.add_eq i).2
    obtain ⟨moved, folded⟩ := s.counts_add i
    rw [addAll, addedAll_cons, upToReturn]
    split
    · simp [temporaries, moved, folded, List.countP_cons]
    · obtain ⟨temporaries', moved', folded'⟩ := ih (s.add i)
      simp only [temporaries', moved', folded', temporaries, moved, folded, List.countP_cons]
      omega

end Normalizing

namespace Program

open Instruction

variable (p : Program)

theorem normalize_counts :
    p.normalize.program.nextTemp = p.nextTemp + addedAll p.instructions ∧
      p.normalize.materialized = addedAll p.instructions ∧
      p.normalize.folded = (upToReturn p.instructions).countP isFoldable := by
  simpa [normalize, Normalizer.normalize] using
    Normalizing.counts_addAll ⟨[], p.nextTemp, 0, 0⟩ p.instructions

theorem normalForm_normalize : NormalForm p.normalize.program.instructions := by
  rw [normalize_instructions]
  exact normalForm_normalAll _ _

theorem normalize_of_normalForm (h : NormalForm p.instructions) : p.normalize = ⟨p, 0, 0⟩ := by
  obtain ⟨temporaries, moved, folded⟩ := p.normalize_counts
  have code := p.normalize_instructions
  rw [addedAll_of_normalForm h] at temporaries moved
  rw [countP_isFoldable_of_normalForm h] at folded
  rw [normalAll_of_normalForm _ h] at code
  cases normalized : p.normalize with
  | mk q f m =>
    rw [normalized] at temporaries moved folded code
    cases q
    cases p
    simp_all

/-- What is left without the moves into new temporaries sets what the program sets, up to its first
return. -/
theorem exists_interleaved_normalize :
    ∃ left, Interleaved p.nextTemp p.normalize.program.instructions left
        (p.nextTemp + p.normalize.materialized) ∧
      left.map result? = (upToReturn p.instructions).map result? := by
  rw [normalize_instructions, p.normalize_counts.2.1]
  exact interleaved_normalAll _ _

theorem movesFrom_of_reserved {p : Program} {left : List Instruction} (reserved : p.Reserved)
    (results : left.map result? = (upToReturn p.instructions).map result?) :
    ∀ i ∈ left, i.movesFrom p.nextTemp = false := by
  intro i hi
  have set : i.result? ∈ (upToReturn p.instructions).map result? :=
    results ▸ List.mem_map_of_mem hi
  obtain ⟨j, hj, same⟩ := List.mem_map.mp set
  have below := reserved j (mem_of_mem_upToReturn hj)
  unfold movesFrom
  split
  · rename_i n src
    have here : Variable.temp n ∈ j.occurrences := mem_occurrences.mpr (Or.inl same)
    have low : n < p.nextTemp := below _ here
    simpa using low
  · rfl

end Program

/-- A pass does what bringing a single program to normal form does, whatever it was used for. -/
theorem Normalizer.normalize_eq (p : Program) (n : Normalizer) :
    Normalizer.normalize p n =
      (p.normalize.program,
        ⟨p.normalize.program.nextTemp, p.normalize.folded, p.normalize.materialized⟩) :=
  rfl

/-- The accounts of a pass. Its output is in normal form, as long as the instructions up to the first
return and the temporaries it added together, with that many more temporaries in use; two immediates
are counted as folded. Without the moves into the added temporaries the output sets what these
instructions set, in their order, and any further pass changes nothing and counts nothing. -/
theorem Normalizer.normalize_accounts (p : Program) (n m : Normalizer) :
    ∃ q n', Normalizer.normalize p n = (q, n') ∧ Instruction.NormalForm q.instructions ∧
      q.instructions.length =
        (Instruction.upToReturn p.instructions).length + n'.materialized ∧
      q.nextTemp = p.nextTemp + n'.materialized ∧
      n'.folded = (Instruction.upToReturn p.instructions).countP Instruction.isFoldable ∧
      (∃ left, Instruction.Interleaved p.nextTemp q.instructions left q.nextTemp ∧
        left.map Instruction.result? =
          (Instruction.upToReturn p.instructions).map Instruction.result? ∧
        (p.Reserved → q.instructions.filter (fun i => !i.movesFrom p.nextTemp) = left)) ∧
      Normalizer.normalize q m = (q, ⟨q.nextTemp, 0, 0⟩) := by
  obtain ⟨temporaries, moved, folded⟩ := p.normalize_counts
  obtain ⟨left, interleaved, results⟩ := p.exists_interleaved_normalize
  have length := interleaved.length
  have same := congrArg List.length results
  rw [List.length_map, List.length_map] at same
  rw [← moved] at temporaries
  refine ⟨_, _, normalize_eq p n, p.normalForm_normalize, ?_, temporaries, folded,
    ⟨left, ?_, results, ?_⟩, ?_⟩
  · dsimp only
    omega
  · rw [temporaries]
    exact interleaved
  · intro reserved
    exact interleaved.filter (Nat.le_refl _) (Program.movesFrom_of_reserved reserved results)
  · rw [normalize_eq, Program.normalize_of_normalForm _ p.normalForm_normalize]

end Straightline
