import Straightline.Proofs.Evaluation
import Straightline.Proofs.RegisterReuse
import Straightline.Proofs.Sequencing

/-!
# Generated code keeps the meaning

Each instruction becomes one line (`Target.Emits` lists the forms). Going through a program and its
code side by side, the registers keep track of the environment from line to line, so that the code
ends with the returned value in the return register, or leaves that register alone when nothing is
returned.
-/
namespace Straightline

namespace Target

variable (t : Target)

/-- The code of an instruction, with the registers before and after the requests made for it. -/
inductive Emits : Instruction → Registers → Code → Registers → Prop where
  | li {dest n r q r'} : r.resolve dest = .ok (q, r') →
    Emits (.move dest (.imm n)) r (.li q n) r'
  | mv {dest v r q r₁ p r'} : r.resolve dest = .ok (q, r₁) → r₁.resolve v = .ok (p, r') →
    Emits (.move dest (.var v)) r (.mv q p) r'
  | addi {dest v n r q r₁ p r'} : r.resolve dest = .ok (q, r₁) → r₁.resolve v = .ok (p, r') →
    fitsSum n → Emits (.binary .add dest (.var v) (.imm n)) r (.addi q p n) r'
  | arithmetic {op dest v w r q r₁ a r₂ b r'} : r.resolve dest = .ok (q, r₁) →
    r₁.resolve v = .ok (a, r₂) → r₂.resolve w = .ok (b, r') →
    Emits (.binary op dest (.var v) (.var w)) r (.arithmetic op q a b) r'
  | retImm {n r} : Emits (.ret (.imm n)) r (.li t.returnRegister n) r
  | retVar {v r p r'} : r.resolve v = .ok (p, r') →
    Emits (.ret (.var v)) r (.mv t.returnRegister p) r'

variable {t}

theorem emits_arithmetic {op : Operator} {dest : Variable} {lhs rhs : Operand} {i : Instruction}
    {r r' : Registers} {c : Code}
    (h : (do
      let rd ← register dest
      let rs1 ← operandRegister i lhs
      let rs2 ← operandRegister i rhs
      return Code.arithmetic op rd rs1 rs2 : Generator Code) r = .ok (c, r')) :
    t.Emits (.binary op dest lhs rhs) r c r' := by
  obtain ⟨q, r₁, hq, h⟩ := stateT_bind_eq_ok.mp h
  obtain ⟨a, r₂, ha, h⟩ := stateT_bind_eq_ok.mp h
  obtain ⟨b, r₃, hb, h⟩ := stateT_bind_eq_ok.mp h
  cases h
  cases lhs with
  | imm n => cases ha
  | var v =>
    cases rhs with
    | imm n => cases hb
    | var w => exact .arithmetic hq ha hb

theorem emits_of_code {i : Instruction} {r r' : Registers} {c : Code}
    (h : t.code i r = .ok (c, r')) : t.Emits i r c r' := by
  cases i with
  | move dest src =>
    cases src with
    | imm n =>
      obtain ⟨q, r₁, hq, h⟩ := stateT_bind_eq_ok.mp h
      cases h
      exact .li hq
    | var v =>
      obtain ⟨q, r₁, hq, h⟩ := stateT_bind_eq_ok.mp h
      obtain ⟨p, r₂, hp, h⟩ := stateT_bind_eq_ok.mp h
      cases h
      exact .mv hq hp
  | binary op dest lhs rhs =>
    cases op with
    | add =>
      cases rhs with
      | var w => exact emits_arithmetic h
      | imm n =>
        obtain ⟨q, r₁, hq, h⟩ := stateT_bind_eq_ok.mp h
        obtain ⟨p, r₂, hp, h⟩ := stateT_bind_eq_ok.mp h
        cases lhs with
        | imm m => cases hp
        | var v =>
          split at h
          · rename_i fits
            cases h
            exact .addi hq hp fits
          · cases h
    | sub => exact emits_arithmetic h
    | mul => exact emits_arithmetic h
  | ret value =>
    cases value with
    | imm n =>
      cases h
      exact .retImm
    | var v =>
      obtain ⟨p, r₁, hp, h⟩ := stateT_bind_eq_ok.mp h
      cases h
      exact .retVar hp

/-! ### One line -/

section Simulation

variable {i : Instruction} {r r' : Registers} {c : Code} {ahead : List Variable}
  {env : Environment} {regs : RegisterFile} {rest : List Instruction} {x : Option Int64}

theorem Emits.registers (he : t.Emits i r c r') :
    r'.slots.map (·.register) = r.slots.map (·.register) := by
  cases he with
  | li hq => exact Registers.resolve_registers hq
  | mv hq hp => rw [Registers.resolve_registers hp, Registers.resolve_registers hq]
  | addi hq hp => rw [Registers.resolve_registers hp, Registers.resolve_registers hq]
  | arithmetic hq ha hb =>
    rw [Registers.resolve_registers hb, Registers.resolve_registers ha,
      Registers.resolve_registers hq]
  | retImm => rfl
  | retVar hp => exact Registers.resolve_registers hp

/-- A line that does not return changes one register, and keeps track of what the instruction does
to the environment. -/
theorem Emits.step (he : t.Emits i r c r') (goesOn : i.isReturn = false)
    (h : r.Tracks (i.occurrences ++ ahead) env regs)
    (hx : Program.run (fun _ => none) env (i :: rest) = .ok x) :
    ∃ dest q n, r'.Holds q dest ∧ regs.after c = Function.update regs q n ∧
      r'.Tracks ahead (env.insert dest n) (Function.update regs q n) ∧
      Program.run (fun _ => none) (env.insert dest n) rest = .ok x := by
  cases he with
  | @li dest n r q r' hq =>
    have bound := Registers.holds_of_resolve h.sound hq
    exact ⟨dest, q, n, bound, rfl, (h.resolve hq).write bound n, hx⟩
  | @mv dest v r q r₁ p r' hq hp =>
    have bound := Registers.holds_of_resolve h.sound hq
    have h := h.resolve hq
    obtain ⟨n, hv, hx⟩ := Program.run_move_eq_ok.mp hx
    obtain ⟨value, same⟩ := h.read hp (Operand.value_eq_ok_iff.mp hv)
    have bound := (same q dest).mpr bound
    exact ⟨dest, q, n, bound, by rw [RegisterFile.after, value], (h.resolve hp).write bound n, hx⟩
  | @addi dest v n r q r₁ p r' hq hp fits =>
    have bound := Registers.holds_of_resolve h.sound hq
    have h := h.resolve hq
    obtain ⟨a, b, hv, hn, hx⟩ := Program.run_binary_eq_ok.mp hx
    obtain ⟨value, same⟩ := h.read hp (Operand.value_eq_ok_iff.mp hv)
    have bound := (same q dest).mpr bound
    cases hn
    exact ⟨dest, q, a + n, bound, by rw [RegisterFile.after, value], (h.resolve hp).write bound _,
      hx⟩
  | @arithmetic op dest v w r q r₁ p₁ r₂ p₂ r' hq ha hb =>
    have bound := Registers.holds_of_resolve h.sound hq
    have h := h.resolve hq
    obtain ⟨a, b, hv, hw, hx⟩ := Program.run_binary_eq_ok.mp hx
    obtain ⟨left, same⟩ := h.read ha (Operand.value_eq_ok_iff.mp hv)
    have bound := (same q dest).mpr bound
    have h := h.resolve ha
    obtain ⟨right, same⟩ := h.read hb (Operand.value_eq_ok_iff.mp hw)
    have bound := (same q dest).mpr bound
    exact ⟨dest, q, op.apply a b, bound, by rw [RegisterFile.after, left, right],
      (h.resolve hb).write bound _, hx⟩
  | retImm => cases goesOn
  | retVar => cases goesOn

theorem Emits.returned (he : t.Emits i r c r') (returns : i.isReturn = true)
    (h : r.Tracks (i.occurrences ++ ahead) env regs)
    (hx : Program.run (fun _ => none) env (i :: rest) = .ok x) :
    x = some (regs.after c t.returnRegister) := by
  cases he with
  | @retImm n r =>
    cases hx
    simp [RegisterFile.after]
  | @retVar v r p r' hp =>
    obtain ⟨n, hv, rfl⟩ := Program.run_ret_eq_ok.mp hx
    have value := (h.read hp (Operand.value_eq_ok_iff.mp hv)).1
    simp [RegisterFile.after, value]
  | li => cases returns
  | mv => cases returns
  | addi => cases returns
  | arithmetic => cases returns

/-! ### The run -/

theorem linesOnto_eq (done : List AssemblyLine) (instructions : List Instruction) (r : Registers) :
    t.linesOnto done instructions r =
      (t.generate instructions r).map fun a => ⟨done.reverse ++ a.lines⟩ := by
  unfold generate
  induction instructions generalizing done r with
  | nil => simp [linesOnto, Except.map]
  | cons i rest ih =>
    rw [linesOnto, linesOnto]
    cases t.line i r with
    | error e => rfl
    | ok got =>
      obtain ⟨l, r⟩ := got
      dsimp only
      split
      · simp [Except.map]
      · rw [ih (l :: done), ih [l]]
        cases t.linesOnto [] rest r <;> simp [Except.map]

theorem generate_cons {a : Assembly} (h : t.generate (i :: rest) r = .ok a) :
    ∃ c r' comment lines, t.Emits i r c r' ∧ a = ⟨⟨c, comment⟩ :: lines⟩ ∧
      if i.isReturn then lines = [] else t.generate rest r' = .ok ⟨lines⟩ := by
  rw [generate, linesOnto] at h
  cases hl : t.line i r with
  | error e => simp [hl] at h
  | ok got =>
    obtain ⟨l, r'⟩ := got
    simp only [hl] at h
    obtain ⟨c, r₁, hc, made⟩ := stateT_bind_eq_ok.mp hl
    cases made
    split at h
    · cases h
      exact ⟨c, r', _, [], emits_of_code hc, rfl, by simp [*]⟩
    · rw [linesOnto_eq] at h
      cases hg : t.generate rest r' with
      | error e => simp [hg, Except.map] at h
      | ok b =>
        simp [hg, Except.map] at h
        exact ⟨c, r', _, b.lines, emits_of_code hc, by rw [← h], by simp [*]⟩

/-- Code that is run from registers that keep track of an environment does what evaluation from
that environment does: the return register gets what is returned, and keeps what it has
otherwise. -/
theorem run_generate {instructions : List Instruction} {a : Assembly}
    (h : r.Tracks (instructions.flatMap (·.occurrences)) env regs)
    (apart : t.returnRegister ∉ r.slots.map (·.register))
    (hg : t.generate instructions r = .ok a)
    (hx : Program.run (fun _ => none) env instructions = .ok x) :
    ∃ regs', a.run regs = some regs' ∧
      regs' t.returnRegister = x.getD (regs t.returnRegister) := by
  induction instructions generalizing r env regs a with
  | nil =>
    cases hg
    cases hx
    exact ⟨regs, rfl, rfl⟩
  | cons i rest ih =>
    obtain ⟨c, r', comment, lines, he, rfl, further⟩ := generate_cons hg
    rw [List.flatMap_cons] at h
    by_cases returns : i.isReturn = true
    · rw [if_pos returns] at further
      subst further
      exact ⟨regs.after c, by simp, by rw [he.returned returns h hx]; rfl⟩
    · rw [if_neg returns] at further
      obtain ⟨dest, q, n, bound, after, h, hx⟩ := he.step (by simpa using returns) h hx
      rw [← he.registers] at apart
      have other : t.returnRegister ≠ q := by
        rintro rfl
        exact apart (List.mem_map.mpr ⟨_, bound, rfl⟩)
      obtain ⟨regs', ran, result⟩ := ih h apart further hx
      exact ⟨regs', by rw [Assembly.run_cons, after, ran], by simpa [other] using result⟩

theorem run_allocated {names : List String} {instructions : List Instruction} {r : Registers}
    {a : Assembly} {x : Option Int64} (apart : t.returnRegister ∉ names)
    (allocated : Registers.ofNames names (.ofInstructions instructions) = .ok r)
    (generated : t.generate instructions r = .ok a)
    (evaluated : Program.run (fun _ => none) ∅ instructions = .ok x) (regs : RegisterFile) :
    ∃ regs', a.run regs = some regs' ∧
      regs' t.returnRegister = x.getD (regs t.returnRegister) := by
  have named : t.returnRegister ∉ r.slots.map (·.register) := by
    rw [Registers.registers_ofNames allocated]
    exact apart
  exact run_generate (Registers.tracks_ofNames allocated regs) named generated evaluated

end Simulation

/-- Code generated for registers that are reused does what the instructions do. From any register
contents it leaves a returned value in the return register, and without one leaves that register
alone. Nothing is asked of the shape of the instructions: where it does not fit, there is no
code. -/
theorem run_of_generate (t : Target) {names : List String} {instructions : List Instruction}
    {r : Registers} {a : Assembly} {x : Option Int64} (apart : t.returnRegister ∉ names)
    (allocated : Registers.ofNames names (.ofInstructions instructions) = .ok r)
    (generated : t.generate instructions r = .ok a)
    (evaluated : (Program.ofInstructions instructions).evaluate (fun _ => none) = .ok x)
    (regs : RegisterFile) :
    ∃ regs', a.run regs = some regs' ∧ (∀ v, x = some v → regs' t.returnRegister = v) ∧
      (x = none → regs' t.returnRegister = regs t.returnRegister) := by
  obtain ⟨regs', ran, result⟩ := run_allocated apart allocated generated evaluated regs
  refine ⟨regs', ran, ?_, ?_⟩
  · rintro v rfl
    exact result
  · rintro rfl
    exact result

/-- Two registers are enough for four variables, two of which take the registers of the others. -/
theorem run_of_generate_evicting :
    let instructions : List Instruction :=
      [.move (.named "x") (.imm 5), .binary .add (.named "y") (.var (.named "x")) (.imm 3),
        .move (.named "z") (.var (.named "y")),
        .binary .mul (.temp 0) (.var (.named "z")) (.var (.named "z")), .ret (.var (.temp 0))]
    let t : Target := ⟨"a0", false⟩
    let r : Registers := ⟨[⟨"t0", none⟩, ⟨"t1", none⟩], .ofInstructions instructions⟩
    let a : Assembly :=
      ⟨[⟨.li "t0" 5, none⟩, ⟨.addi "t1" "t0" 3, none⟩, ⟨.mv "t0" "t1", none⟩,
        ⟨.arithmetic .mul "t1" "t0" "t0", none⟩, ⟨.mv "a0" "t1", none⟩]⟩
    t.returnRegister ∉ ["t0", "t1"] ∧
      Registers.ofNames ["t0", "t1"] (.ofInstructions instructions) = .ok r ∧
      t.generate instructions r = .ok a ∧
      (Program.ofInstructions instructions).evaluate (fun _ => none) = .ok (some 64) ∧
      ∀ regs, ∃ regs', a.run regs = some regs' ∧ (∀ v, some 64 = some v → regs' "a0" = v) ∧
        (some (64 : Int64) = none → regs' "a0" = regs "a0") := by
  intro instructions t r a
  have apart : t.returnRegister ∉ ["t0", "t1"] := by decide
  have allocated : Registers.ofNames ["t0", "t1"] (.ofInstructions instructions) = .ok r := rfl
  have generated : t.generate instructions r = .ok a := by decide +kernel
  have evaluated : (Program.ofInstructions instructions).evaluate (fun _ => none) = .ok (some 64) :=
    rfl
  exact ⟨apart, allocated, generated, evaluated,
    run_of_generate t apart allocated generated evaluated⟩

end Target

end Straightline
