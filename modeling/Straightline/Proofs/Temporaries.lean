import Straightline.Proofs.DeclaredTypes
import Straightline.Proofs.EmittedCode
import Straightline.Proofs.FirstReturn
import Straightline.Proofs.RegisterReuse

/-!
# Temporaries are set once and read once

Code is linear in its temporaries when it sets none twice, reads each as often as it sets it, and
reads none before it is set. The code of statements is linear, its temporaries being set in the order
of their numbers, and normal form keeps it so with the temporaries that it adds.
-/
namespace Straightline

def Variable.temp? : Variable → Option Nat
  | named _ => none
  | temp n => some n

def Operand.temp? (o : Operand) : Option Nat :=
  o.var?.bind Variable.temp?

theorem Variable.temp?_eq_some {v : Variable} {k : Nat} : v.temp? = some k ↔ v = .temp k := by
  cases v <;> simp [temp?]

theorem Operand.temp?_eq_some {o : Operand} {k : Nat} : o.temp? = some k ↔ o = .var (.temp k) := by
  cases o <;> simp [temp?, var?, Variable.temp?_eq_some]

namespace Instruction

variable {i : Instruction} {k : Nat} {known known' : List Nat} {code code' : List Instruction}

def sets (i : Instruction) : List Nat :=
  (i.result?.bind Variable.temp?).toList

/-- The temporaries that an instruction reads, from left to right. -/
def reads (i : Instruction) : List Nat :=
  i.operands.flatMap fun o => o.temp?.toList

theorem mem_sets : k ∈ i.sets ↔ i.result? = some (.temp k) := by
  simp [sets, Option.bind_eq_some_iff, Variable.temp?_eq_some]

theorem mem_reads : k ∈ i.reads ↔ .var (.temp k) ∈ i.operands := by
  simp [reads, Operand.temp?_eq_some]

theorem reads_move (dest : Variable) (o : Operand) : (move dest o).reads = o.temp?.toList := by
  simp [reads, operands]

theorem reads_ret (o : Operand) : (ret o).reads = o.temp?.toList := by
  simp [reads, operands]

theorem reads_binary (op : Operator) (dest : Variable) (o o' : Operand) :
    (binary op dest o o').reads = o.temp?.toList ++ o'.temp?.toList := by
  simp [reads, operands]

/-- Each temporary that is read was known before or is set earlier in the code. -/
def Ordered : List Nat → List Instruction → Prop
  | _, [] => True
  | known, i :: rest => (∀ k ∈ i.reads, k ∈ known) ∧ Ordered (i.sets ++ known) rest

theorem Ordered.mono (h : Ordered known code) (more : ∀ k ∈ known, k ∈ known') :
    Ordered known' code := by
  induction code generalizing known known' with
  | nil => trivial
  | cons i rest ih =>
    obtain ⟨here, further⟩ := h
    refine ⟨fun k hk => more k (here k hk), ih further ?_⟩
    intro k hk
    rcases List.mem_append.mp hk with hk | hk
    · exact List.mem_append_left _ hk
    · exact List.mem_append_right _ (more k hk)

theorem Ordered.append (first : Ordered known code)
    (second : Ordered (code.flatMap sets ++ known) code') : Ordered known (code ++ code') := by
  induction code generalizing known with
  | nil => exact second
  | cons i rest ih =>
    obtain ⟨here, further⟩ := first
    refine ⟨here, ih further (second.mono ?_)⟩
    intro k hk
    simp only [List.flatMap_cons, List.mem_append] at hk ⊢
    grind

theorem Ordered.exists_set (h : Ordered known code) (fresh : k ∉ known)
    (read : k ∈ code.flatMap reads) :
    ∃ front i back, code = front ++ i :: back ∧ k ∈ i.sets ∧ k ∈ back.flatMap reads := by
  induction code generalizing known with
  | nil => cases read
  | cons i rest ih =>
    obtain ⟨here, further⟩ := h
    rw [List.flatMap_cons, List.mem_append] at read
    rcases read with read | read
    · exact absurd (here k read) fresh
    · by_cases set : k ∈ i.sets
      · exact ⟨[], i, rest, rfl, set, read⟩
      · obtain ⟨front, j, back, rfl, found, later⟩ := ih further (by simp [set, fresh]) read
        exact ⟨i :: front, j, back, rfl, found, later⟩

/-! ### Linear code -/

/-- A temporary is set by one instruction of the code and is one of its operands once, in a later
instruction. -/
structure SetAndReadOnce (code : List Instruction) (k : Nat) : Prop where
  set : (code.map result?).count (some (.temp k)) = 1
  read : (code.flatMap operands).count (.var (.temp k)) = 1
  later : ∃ front i back, code = front ++ i :: back ∧ i.result? = some (.temp k) ∧
    .var (.temp k) ∈ back.flatMap operands

/-- Code that sets no temporary twice and reads each as often as it sets it, later. -/
structure Linear (code : List Instruction) : Prop where
  once : (code.flatMap sets).Nodup
  balanced : (code.flatMap reads).Perm (code.flatMap sets)
  ordered : Ordered [] code

theorem count_sets (i : Instruction) (k : Nat) :
    i.sets.count k = if i.result? = some (.temp k) then 1 else 0 := by
  cases i with
  | move dest src => cases dest <;> simp [sets, result?, Variable.temp?, List.count_cons]
  | binary op dest lhs rhs => cases dest <;> simp [sets, result?, Variable.temp?, List.count_cons]
  | ret value => rfl

theorem count_results (code : List Instruction) (k : Nat) :
    (code.map result?).count (some (.temp k)) = (code.flatMap sets).count k := by
  induction code with
  | nil => rfl
  | cons i rest ih =>
    rw [List.map_cons, List.count_cons, ih, List.flatMap_cons, List.count_append, count_sets,
      Nat.add_comm]
    simp only [beq_iff_eq]

theorem count_reads (i : Instruction) (k : Nat) :
    i.reads.count k = i.operands.count (.var (.temp k)) := by
  have one (o : Operand) : o.temp?.toList.count k = if o = .var (.temp k) then 1 else 0 := by
    cases found : o.temp? with
    | none =>
      have other : o ≠ .var (.temp k) := by
        rintro rfl
        cases found
      simp [other]
    | some m =>
      rw [Operand.temp?_eq_some.mp found]
      simp [List.count_cons]
  unfold reads
  induction i.operands with
  | nil => rfl
  | cons o rest ih =>
    rw [List.flatMap_cons, List.count_append, List.count_cons, one, ih, Nat.add_comm]
    simp only [beq_iff_eq]

theorem count_operands (code : List Instruction) (k : Nat) :
    (code.flatMap operands).count (.var (.temp k)) = (code.flatMap reads).count k := by
  induction code with
  | nil => rfl
  | cons i rest ih =>
    rw [List.flatMap_cons, List.flatMap_cons, List.count_append, List.count_append, ih, count_reads]

theorem mem_flatMap_occurrences :
    .temp k ∈ code.flatMap (·.occurrences) ↔ k ∈ code.flatMap sets ∨ k ∈ code.flatMap reads := by
  simp only [List.mem_flatMap, mem_occurrences, mem_sets, mem_reads]
  grind

theorem Linear.mem_occurrences (h : Linear code) :
    .temp k ∈ code.flatMap (·.occurrences) ↔ k ∈ code.flatMap sets := by
  rw [mem_flatMap_occurrences, h.balanced.mem_iff, or_self]

theorem Linear.setAndReadOnce (h : Linear code) (occurs : .temp k ∈ code.flatMap (·.occurrences)) :
    SetAndReadOnce code k := by
  have set := h.mem_occurrences.mp occurs
  have once := List.count_eq_one_of_mem h.once set
  have read : (code.flatMap reads).count k = 1 := by rw [h.balanced.count_eq, once]
  obtain ⟨front, i, back, split, found, later⟩ :=
    h.ordered.exists_set List.not_mem_nil (h.balanced.mem_iff.mpr set)
  refine ⟨by rw [count_results, once], by rw [count_operands, read], front, i, back, split,
    mem_sets.mp found, ?_⟩
  simpa [mem_reads] using later

theorem count_occurrences (i : Instruction) (v : Variable) :
    i.occurrences.count v = (if i.result? = some v then 1 else 0) + i.operands.count (.var v) := by
  have operand : (i.operands.filterMap Operand.var?).count v = i.operands.count (.var v) := by
    induction i.operands with
    | nil => rfl
    | cons o rest ih => cases o <;> simp [List.filterMap_cons, Operand.var?, List.count_cons, ih]
  rw [occurrences, List.count_append, operand]
  cases i.result? <;> simp [List.count_cons]

theorem SetAndReadOnce.usage (h : SetAndReadOnce code k) :
    (Usage.ofInstructions code)[Variable.temp k]? = some 2 := by
  have both (code : List Instruction) (v : Variable) :
      (code.flatMap (·.occurrences)).count v =
        (code.map result?).count (some v) + (code.flatMap operands).count (.var v) := by
    induction code with
    | nil => rfl
    | cons i rest ih =>
      simp only [List.flatMap_cons, List.map_cons, List.count_append, List.count_cons, ih,
        count_occurrences, beq_iff_eq]
      omega
  have twice := Usage.getD_ofInstructions code (.temp k)
  rw [both, h.set, h.read, Std.TreeMap.getD_eq_getD_getElem?] at twice
  cases found : (Usage.ofInstructions code)[Variable.temp k]? with
  | none => simp [found] at twice
  | some m => simpa [found] using twice

end Instruction

/-! ### The code of statements -/

open Instruction

namespace Expression

variable {n : NonTerminal} {next : Nat}

theorem sets_code (e : Expression n) (next : Nat) :
    (e.code next).flatMap sets = List.range' next e.temporaries := by
  induction e generalizing next with
  | arithmetic op lhs sign rhs ihl ihr =>
    rw [code, temporaries, List.flatMap_append, List.flatMap_append, ihl, ihr,
      List.range'_append_1, List.range'_1_concat, Nat.add_assoc]
    rfl
  | ofTerm inner ih => exact ih next
  | ofFactor inner ih => exact ih next
  | parenthesized left inner right ih => exact ih next
  | name v => rfl
  | literal l => rfl

/-- Behind the code of an expression the temporary of its value is the only one left to read. -/
theorem reads_code (e : Expression n) (next : Nat) :
    ((e.code next).flatMap reads ++ (e.operand next).temp?.toList).Perm
      (List.range' next e.temporaries) := by
  induction e generalizing next with
  | arithmetic op lhs sign rhs ihl ihr =>
    have value : (operand next (arithmetic op lhs sign rhs)).temp?.toList =
        [next + (lhs.temporaries + rhs.temporaries)] := by
      rw [← Nat.add_assoc]
      rfl
    rw [value, temporaries, List.range'_1_concat, ← List.range'_append_1]
    -- the last instruction reads what was left over from both sides
    refine List.Perm.append_right _ (List.perm_iff_count.mpr fun k => ?_)
    have left := (ihl next).count_eq k
    have right := (ihr (next + lhs.temporaries)).count_eq k
    rw [List.count_append] at left right
    simp only [code, List.flatMap_append, List.flatMap_singleton, reads_binary,
      List.count_append]
    omega
  | ofTerm inner ih => exact ih next
  | ofFactor inner ih => exact ih next
  | parenthesized left inner right ih => exact ih next
  | name v => exact .nil
  | literal l => exact .nil

theorem temp?_operand (e : Expression n) {k : Nat} (h : (e.operand next).temp? = some k) :
    k ∈ (e.code next).flatMap sets := by
  rw [e.sets_code, ← (e.reads_code next).mem_iff, h]
  simp

theorem ordered_code (e : Expression n) (next : Nat) : Ordered [] (e.code next) := by
  induction e generalizing next with
  | arithmetic op lhs sign rhs ihl ihr =>
    have right : Ordered [] (lhs.code next ++ rhs.code (next + lhs.temporaries)) :=
      (ihl next).append ((ihr _).mono (by simp))
    refine right.append ⟨?_, trivial⟩
    intro k hk
    rw [List.append_nil, List.flatMap_append, List.mem_append]
    rcases List.mem_cons.mp (mem_reads.mp hk) with same | hk
    · exact Or.inl (lhs.temp?_operand (Operand.temp?_eq_some.mpr same.symm))
    · have same := List.mem_singleton.mp hk
      exact Or.inr (rhs.temp?_operand (Operand.temp?_eq_some.mpr same.symm))
  | ofTerm inner ih => exact ih next
  | ofFactor inner ih => exact ih next
  | parenthesized left inner right ih => exact ih next
  | name v => trivial
  | literal l => trivial

theorem sets_code_append (e : Expression n) (next : Nat) {i : Instruction}
    (none : i.sets = []) :
    (e.code next ++ [i]).flatMap sets = List.range' next e.temporaries := by
  rw [List.flatMap_append, e.sets_code]
  simp [none]

theorem reads_code_append (e : Expression n) (next : Nat) {i : Instruction}
    (reads : i.reads = (e.operand next).temp?.toList) :
    ((e.code next ++ [i]).flatMap Instruction.reads).Perm (List.range' next e.temporaries) := by
  rw [List.flatMap_append, List.flatMap_singleton, reads]
  exact e.reads_code next

theorem ordered_code_append (e : Expression n) (next : Nat) {i : Instruction}
    (reads : i.reads = (e.operand next).temp?.toList) : Ordered [] (e.code next ++ [i]) := by
  refine (e.ordered_code next).append ⟨?_, trivial⟩
  intro k hk
  rw [reads, Option.mem_toList] at hk
  exact List.mem_append_left _ (e.temp?_operand hk)

end Expression

namespace Statement

theorem sets_code (s : Statement) (next : Nat) :
    (s.code next).flatMap sets = List.range' next s.temporaries := by
  cases s with
  | declaration type name => rfl
  | assignment name equals value => exact value.sets_code_append next rfl
  | returning word value => exact value.sets_code_append next rfl

theorem reads_code (s : Statement) (next : Nat) :
    ((s.code next).flatMap reads).Perm (List.range' next s.temporaries) := by
  cases s with
  | declaration type name => exact .nil
  | assignment name equals value => exact value.reads_code_append next (reads_move ..)
  | returning word value => exact value.reads_code_append next (reads_ret _)

theorem ordered_code (s : Statement) (next : Nat) : Ordered [] (s.code next) := by
  cases s with
  | declaration type name => trivial
  | assignment name equals value => exact value.ordered_code_append next (reads_move ..)
  | returning word value => exact value.ordered_code_append next (reads_ret _)

theorem sets_codeAll (l : List Statement) (next : Nat) :
    (codeAll next l).flatMap sets = List.range' next (temporariesAll l) := by
  induction l generalizing next with
  | nil => rfl
  | cons s rest ih =>
    rw [codeAll, temporariesAll, List.flatMap_append, s.sets_code, ih, List.range'_append_1]

theorem reads_codeAll (l : List Statement) (next : Nat) :
    ((codeAll next l).flatMap reads).Perm (List.range' next (temporariesAll l)) := by
  induction l generalizing next with
  | nil => exact .nil
  | cons s rest ih =>
    rw [codeAll, temporariesAll, List.flatMap_append, ← List.range'_append_1]
    exact (s.reads_code next).append (ih _)

theorem ordered_codeAll (l : List Statement) (next : Nat) : Ordered [] (codeAll next l) := by
  induction l generalizing next with
  | nil => trivial
  | cons s rest ih => exact (s.ordered_code next).append ((ih _).mono (by simp))

theorem linear_codeAll (l : List Statement) (next : Nat) : Linear (codeAll next l) where
  once := by
    rw [sets_codeAll]
    exact List.nodup_range'
  balanced := by
    rw [sets_codeAll]
    exact reads_codeAll l next
  ordered := ordered_codeAll l next

theorem temporariesAll_upToReturn_le (l : List Statement) :
    temporariesAll (upToReturn l) ≤ temporariesAll l := by
  induction l with
  | nil => exact Nat.le_refl 0
  | cons s rest ih =>
    rw [upToReturn, temporariesAll, temporariesAll]
    split
    · rw [temporariesAll]
      omega
    · omega

end Statement

/-! ### Normal code -/

namespace Instruction

variable {i : Instruction} {next : Nat} {known : List Nat} {code instructions : List Instruction}

theorem Becomes.sets (h : Becomes next i code) :
    code.flatMap Instruction.sets = List.range' next (code.length - 1) ++ i.sets := by
  cases h with
  | kept => simp
  | folded | turned | turnedMoved | leftMoved | rightMoved =>
    simp [Instruction.sets, result?, Variable.temp?]

theorem Becomes.reads (h : Becomes next i code) :
    (code.flatMap Instruction.reads).Perm (List.range' next (code.length - 1) ++ i.reads) := by
  cases h with
  | kept => simp
  | folded => exact .nil
  | turned => simp [reads_binary, Operand.temp?, Operand.var?]
  | turnedMoved | leftMoved | rightMoved =>
    simp [reads_binary, reads_move, Operand.temp?, Operand.var?, Variable.temp?,
      List.perm_append_singleton]

theorem Becomes.ordered (h : Becomes next i code) (here : ∀ k ∈ i.reads, k ∈ known) :
    Ordered known code := by
  cases h with
  | kept => exact ⟨here, trivial⟩
  | folded => exact ⟨by simp [reads_move, Operand.temp?, Operand.var?], trivial⟩
  | turned =>
    refine ⟨?_, trivial⟩
    simpa [reads_binary, Operand.temp?, Operand.var?] using here
  | turnedMoved | leftMoved | rightMoved =>
    refine ⟨by simp [reads_move, Operand.temp?, Operand.var?], ?_, trivial⟩
    intro k hk
    have before := here k
    simp only [reads_binary, List.mem_append, Option.mem_toList, Operand.temp?_eq_some,
      Operand.var.injEq, Variable.temp.injEq, mem_sets, result?, Option.some.injEq, reduceCtorEq,
      or_false, false_or] at hk before ⊢
    grind

theorem sets_normal (next : Nat) (i : Instruction) :
    (i.normal next).flatMap sets = List.range' next i.added ++ i.sets := by
  rw [(becomes_normal next i).sets, length_normal]
  rfl

theorem reads_normal (next : Nat) (i : Instruction) :
    ((i.normal next).flatMap reads).Perm (List.range' next i.added ++ i.reads) := by
  have h := (becomes_normal next i).reads
  rwa [length_normal] at h

/-- What instructions list, where the normal code of each adds the temporaries that it adds. -/
theorem perm_normalAll {f : Instruction → List Nat}
    (own : ∀ next i, ((normal next i).flatMap f).Perm (List.range' next i.added ++ f i))
    (next : Nat) (instructions : List Instruction) :
    ((normalAll next instructions).flatMap f).Perm
      (List.range' next (addedAll instructions) ++ (upToReturn instructions).flatMap f) := by
  induction instructions generalizing next with
  | nil => exact .nil
  | cons i rest ih =>
    rw [normalAll, upToReturn, addedAll_cons]
    by_cases returns : i.isReturn = true
    · rw [if_pos returns, if_pos returns, if_pos returns, List.append_nil,
        List.flatMap_singleton]
      exact own next i
    · rw [if_neg returns, if_neg returns, if_neg returns, List.flatMap_append, List.flatMap_cons,
        ← List.range'_append_1]
      refine List.perm_iff_count.mpr fun k => ?_
      have here := (own next i).count_eq k
      have further := (ih (next + i.added)).count_eq k
      simp only [List.count_append] at here further ⊢
      omega

theorem ordered_normalAll (h : Ordered known instructions) (next : Nat) :
    Ordered known (normalAll next instructions) := by
  induction instructions generalizing next known with
  | nil => trivial
  | cons i rest ih =>
    obtain ⟨here, further⟩ := h
    have own := (becomes_normal next i).ordered here
    rw [normalAll]
    split
    · rwa [List.append_nil]
    · refine own.append ((ih further _).mono ?_)
      intro k hk
      rw [sets_normal, List.append_assoc]
      exact List.mem_append_right _ hk

end Instruction

/-- Normal form keeps the code of statements linear, where it numbers the temporaries that it adds
behind those of the statements. -/
theorem Statement.linear_normalAll (l : List Statement) :
    Linear (normalAll (temporariesAll l) (codeAll 0 l)) := by
  -- what is left of the statements sets temporaries below those that are added
  have shorter := temporariesAll_upToReturn_le l
  have set := perm_normalAll (f := sets) (fun next i => .of_eq (sets_normal next i))
    (temporariesAll l) (codeAll 0 l)
  have read := perm_normalAll reads_normal (temporariesAll l) (codeAll 0 l)
  rw [upToReturn_codeAll] at set read
  rw [sets_codeAll] at set
  refine ⟨set.nodup_iff.mpr ?_, read.trans (.trans (.append_left _ (reads_codeAll _ 0)) set.symm),
    ordered_normalAll (ordered_codeAll l 0) _⟩
  refine List.nodup_append.mpr ⟨List.nodup_range', List.nodup_range', ?_⟩
  intro k hk m hm
  rw [List.mem_range'_1] at hk hm
  omega

/-! ### Temporaries of a source text -/

/-- Temporaries of a source text that parses, as the emitting observer hands its code over. Those
that occur are the ones below the next, set in this order, and each is set once and read once, later.
So is each temporary that occurs in the normal form of the code, which gives it two uses. -/
theorem Subscriber.followSource_temporaries {t : Table} (built : Table.reference = .ok t)
    {source : String} {w : Shared} {r : Shared × List Subscriber}
    (parses : followSource t.control source (w, []) = .ok () r) :
    ∃ symbols u, followSource t.control source (w, [.emitter .empty]) =
        .ok () ({ w with symbols }, [.emitter u]) ∧
      (∀ k, .temp k ∈ u.program.instructions.flatMap (·.occurrences) ↔ k < u.program.nextTemp) ∧
      u.program.instructions.flatMap sets = List.range u.program.nextTemp ∧
      (∀ k < u.program.nextTemp, SetAndReadOnce u.program.instructions k) ∧
      ∀ k, .temp k ∈ u.program.normalize.program.instructions.flatMap (·.occurrences) →
        SetAndReadOnce u.program.normalize.program.instructions k ∧
          (Usage.ofInstructions u.program.normalize.program.instructions)[Variable.temp k]? =
            some 2 := by
  unfold followSource at parses ⊢
  dsimp only at parses ⊢
  split at parses
  · cases parses
  · rename_i tokens scanner symbols scanned
    obtain ⟨l, e, ends, rfl⟩ := Scanner.exists_program built scanned parses
    obtain ⟨u, followed, code⟩ := follow_program built l ends { w with symbols }
    have linear := Statement.linear_codeAll l.statements 0
    have set : (Statement.codeAll 0 l.statements).flatMap sets =
        List.range (Statement.temporariesAll l.statements) := by
      rw [Statement.sets_codeAll, List.range_eq_range']
    have occurs (k : Nat) :
        .temp k ∈ (Statement.codeAll 0 l.statements).flatMap (·.occurrences) ↔
          k < Statement.temporariesAll l.statements := by
      rw [linear.mem_occurrences, set, List.mem_range]
    refine ⟨symbols, u, followed, ?_⟩
    rw [Program.normalize_instructions, code]
    refine ⟨occurs, set, fun k hk => linear.setAndReadOnce ((occurs k).mpr hk), fun k hk => ?_⟩
    have once := (Statement.linear_normalAll l.statements).setAndReadOnce hk
    exact ⟨once, once.usage⟩

/-- Immediates that are moved into temporaries, two that are folded, and statements behind a
return. -/
theorem Subscriber.followSource_temporaries_returning :
    let source := "x = (a + 4096) * 3 - (1 - 2);\nreturn 7 - x;\ny = x * x;"
    let w : Shared := ⟨.empty, []⟩
    let normal : List Instruction := [.move (.temp 6) (.imm 4096),
      .binary .add (.temp 0) (.var (.named "a")) (.var (.temp 6)), .move (.temp 7) (.imm 3),
      .binary .mul (.temp 1) (.var (.temp 0)) (.var (.temp 7)), .move (.temp 2) (.imm (-1)),
      .binary .sub (.temp 3) (.var (.temp 1)) (.var (.temp 2)),
      .move (.named "x") (.var (.temp 3)), .move (.temp 8) (.imm 7),
      .binary .sub (.temp 4) (.var (.temp 8)) (.var (.named "x")), .ret (.var (.temp 4))]
    ∃ t r symbols u, Table.reference = .ok t ∧ followSource t.control source (w, []) = .ok () r ∧
      followSource t.control source (w, [.emitter .empty]) =
        .ok () (⟨symbols, []⟩, [.emitter u]) ∧
      u.program.instructions.flatMap sets = List.range u.program.nextTemp ∧
      u.program.normalize.program.instructions = normal ∧ SetAndReadOnce normal 3 ∧
      SetAndReadOnce normal 7 ∧ (Usage.ofInstructions normal)[Variable.temp 7]? = some 2 := by
  intro source w normal
  have both : (do
      let t ← Table.reference
      match followSource t.control source (w, []) with
      | .error _ _ => .ok none
      | .ok _ _ =>
        match followSource t.control source (w, [.emitter .empty]) with
        | .error _ _ => .ok none
        | .ok _ (_, followed) => .ok (some (followed.map fun
          | .emitter u => u.program.normalize.program.instructions
          | .typing _ | .trace _ | .recorder _ => []))) =
      (Except.ok (some [normal]) : Except Error (Option (List (List Instruction)))) := by
    decide +kernel
  obtain ⟨t, built, both⟩ := bind_eq_ok.mp both
  cases parses : followSource t.control source (w, []) with
  | error e r =>
    rw [parses] at both
    cases both
  | ok _ r =>
    obtain ⟨symbols, u, followed, -, order, -, all⟩ := followSource_temporaries built parses
    rw [parses, followed] at both
    have code : u.program.normalize.program.instructions = normal :=
      (List.cons.inj (Option.some.inj (Except.ok.inj both))).1
    rw [code] at all
    exact ⟨t, r, symbols, u, built, parses, followed, order, code, (all 3 (by decide)).1,
      all 7 (by decide)⟩

end Straightline
