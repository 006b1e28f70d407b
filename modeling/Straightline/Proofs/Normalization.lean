import Straightline.NormalForm
import Straightline.Proofs.Evaluation

/-!
# Normal form keeps the meaning

Normal code is the concatenation of what each instruction becomes, up to the first return; the
accumulator that produces it is not visible in the result (`normalize_instructions`). Evaluating
the normal code of a program gives what evaluating the program gives, for all inputs: the same
value, no value, or the complaint about the same variable.

The two evaluations go side by side. Their environments agree on every variable that the program
may mention; the temporaries that normal code adds are numbered above these.
-/
namespace Straightline

/-- A variable that is no temporary from a given number on. -/
def Variable.Below (bound : Nat) : Variable → Prop
  | named _ => True
  | temp n => n < bound

def Operand.Below (bound : Nat) : Operand → Prop
  | var v => v.Below bound
  | imm _ => True

def Instruction.Below (bound : Nat) (i : Instruction) : Prop :=
  ∀ v ∈ i.occurrences, v.Below bound

/-- The next temporary is above every temporary that occurs. -/
def Program.Reserved (p : Program) : Prop :=
  ∀ i ∈ p.instructions, i.Below p.nextTemp

theorem Variable.Below.mono {a b : Nat} {v : Variable} (h : v.Below a) (hab : a ≤ b) :
    v.Below b := by
  cases v with
  | named name => trivial
  | temp n => exact Nat.lt_of_lt_of_le h hab

theorem Operand.Below.mono {a b : Nat} {o : Operand} (h : o.Below a) (hab : a ≤ b) : o.Below b := by
  cases o with
  | var v => exact Variable.Below.mono h hab
  | imm n => trivial

theorem Instruction.Below.mono {a b : Nat} {i : Instruction} (h : i.Below a) (hab : a ≤ b) :
    i.Below b :=
  fun v hv => (h v hv).mono hab

theorem Instruction.mem_occurrences {i : Instruction} {v : Variable} :
    v ∈ i.occurrences ↔ i.result? = some v ∨ .var v ∈ i.operands := by
  rw [occurrences, List.mem_append, Option.mem_toList, List.mem_filterMap]
  refine or_congr Iff.rfl ⟨?_, fun h => ⟨_, h, rfl⟩⟩
  rintro ⟨o, ho, same⟩
  cases o with
  | imm n => cases same
  | var w =>
    cases same
    exact ho

theorem Instruction.below_iff {bound : Nat} {i : Instruction} :
    i.Below bound ↔ (∀ v ∈ i.result?, v.Below bound) ∧ ∀ o ∈ i.operands, o.Below bound := by
  constructor
  · intro h
    refine ⟨fun v hv => h v (mem_occurrences.mpr (Or.inl hv)), ?_⟩
    intro o ho
    cases o with
    | imm n => trivial
    | var v => exact h v (mem_occurrences.mpr (Or.inr ho))
  · rintro ⟨result, reads⟩ v hv
    rcases mem_occurrences.mp hv with hv | hv
    · exact result v hv
    · exact reads _ hv

namespace Program

theorem le_foldl_max (f : Variable → Nat) (vs : List Variable) (n : Nat) :
    n ≤ vs.foldl (fun n v => max n (f v)) n ∧
      ∀ v ∈ vs, f v ≤ vs.foldl (fun n v => max n (f v)) n := by
  induction vs generalizing n with
  | nil => simp
  | cons w vs ih =>
    obtain ⟨hn, hv⟩ := ih (max n (f w))
    rw [List.foldl_cons]
    refine ⟨by omega, ?_⟩
    intro v hmem
    rcases List.mem_cons.mp hmem with rfl | hmem
    · omega
    · exact hv v hmem

theorem reserved_ofInstructions (instructions : List Instruction) :
    (ofInstructions instructions).Reserved := by
  intro i hi v hv
  cases v with
  | named name => trivial
  | temp n =>
    have occurs : Variable.temp n ∈ instructions.flatMap (·.occurrences) :=
      List.mem_flatMap.mpr ⟨i, hi, hv⟩
    let above : Variable → Nat
      | .named _ => 0
      | .temp n => n + 1
    exact (le_foldl_max above _ 0).2 _ occurs

end Program

/-! ### Normal code, instruction by instruction -/

namespace Instruction

/-- A sum with a variable on its left, its immediate moved into the temporary `next` when it is
too large. -/
def normalSum (next : Nat) (dest v : Variable) (n : Int64) : List Instruction :=
  if fitsSum n then [.binary .add dest (.var v) (.imm n)]
  else [.move (.temp next) (.imm n), .binary .add dest (.var v) (.var (.temp next))]

/-- The normal code of one instruction, with new temporaries from `next` on. -/
def normal (next : Nat) : Instruction → List Instruction
  | binary op dest (.imm a) (.imm b) => [move dest (.imm (op.apply a b))]
  | binary .add dest (.imm a) (.var v) => normalSum next dest v a
  | binary .add dest (.var v) (.imm b) => normalSum next dest v b
  | binary op dest (.imm a) (.var v) =>
    [move (.temp next) (.imm a), binary op dest (.var (.temp next)) (.var v)]
  | binary op dest (.var v) (.imm b) =>
    [move (.temp next) (.imm b), binary op dest (.var v) (.var (.temp next))]
  | i => [i]

def added (i : Instruction) : Nat :=
  (i.normal 0).length - 1

def normalAll (next : Nat) : List Instruction → List Instruction
  | [] => []
  | i :: rest =>
    i.normal next ++ if i.isReturn then [] else normalAll (next + i.added) rest

end Instruction

namespace Normalizing

theorem sum_eq (s : Normalizing) (dest v : Variable) (n : Int64) :
    (s.sum dest (.var v) (.imm n)).code =
        (Instruction.normalSum s.nextTemp dest v n).reverse ++ s.code ∧
      (s.sum dest (.var v) (.imm n)).nextTemp =
        s.nextTemp + ((Instruction.normalSum 0 dest v n).length - 1) := by
  simp only [sum, Instruction.normalSum]
  by_cases fits : fitsSum n
  · simp [fits, emit]
  · simp [fits, emit, materialize]

theorem add_eq (s : Normalizing) (i : Instruction) :
    (s.add i).code = (i.normal s.nextTemp).reverse ++ s.code ∧
      (s.add i).nextTemp = s.nextTemp + i.added := by
  cases i with
  | move dest src => exact ⟨rfl, rfl⟩
  | ret value => exact ⟨rfl, rfl⟩
  | binary op dest lhs rhs =>
    cases lhs with
    | imm a =>
      cases rhs with
      | imm b => exact ⟨rfl, rfl⟩
      | var v =>
        cases op with
        | add => exact s.sum_eq dest v a
        | sub => exact ⟨rfl, rfl⟩
        | mul => exact ⟨rfl, rfl⟩
    | var w =>
      cases rhs with
      | imm b =>
        cases op with
        | add => exact s.sum_eq dest w b
        | sub => exact ⟨rfl, rfl⟩
        | mul => exact ⟨rfl, rfl⟩
      | var v => cases op <;> exact ⟨rfl, rfl⟩

theorem code_addAll (s : Normalizing) (instructions : List Instruction) :
    (s.addAll instructions).code =
      (Instruction.normalAll s.nextTemp instructions).reverse ++ s.code := by
  induction instructions generalizing s with
  | nil => rfl
  | cons i rest ih =>
    rw [addAll, Instruction.normalAll]
    split
    · simp [(s.add_eq i).1]
    · rw [ih, (s.add_eq i).1, (s.add_eq i).2]
      simp

end Normalizing

theorem Program.normalize_instructions (p : Program) :
    p.normalize.program.instructions = Instruction.normalAll p.nextTemp p.instructions := by
  simp [Program.normalize, Normalizer.normalize, Normalizing.code_addAll]

/-! ### Two evaluations side by side -/

section Agreement

variable {inputs : String → Option Int64} {bound : Nat} {env env' : Environment}

/-- The second environment gives every variable below the bound what the first one gives it. -/
def Environment.Agrees (bound : Nat) (env env' : Environment) : Prop :=
  ∀ v : Variable, v.Below bound → env'[v]? = env[v]?

namespace Environment.Agrees

theorem refl (bound : Nat) (env : Environment) : Agrees bound env env :=
  fun _ _ => rfl

theorem insert (h : Agrees bound env env') (dest : Variable) (n : Int64) :
    Agrees bound (env.insert dest n) (env'.insert dest n) := by
  intro v hv
  simp [Std.TreeMap.getElem?_insert, h v hv]

theorem insert_temp (h : Agrees bound env env') {next : Nat} (hn : bound ≤ next) (n : Int64) :
    Agrees bound env (env'.insert (.temp next) n) := by
  intro v hv
  have other : Variable.temp next ≠ v := by
    rintro rfl
    exact absurd hv (Nat.not_lt.mpr hn)
  simp [Std.TreeMap.getElem?_insert, other, h v hv]

theorem trans (h : Agrees bound env env') {env'' : Environment} (h' : Agrees bound env' env'') :
    Agrees bound env env'' :=
  fun v hv => (h' v hv).trans (h v hv)

theorem mono (h : Agrees bound env env') {bound' : Nat} (le : bound' ≤ bound) :
    Agrees bound' env env' :=
  fun v hv => h v (hv.mono le)

theorem operand (h : Agrees bound env env') {o : Operand} (below : o.Below bound) :
    o.value inputs env' = o.value inputs env := by
  cases o with
  | imm n => rfl
  | var v => simp only [Operand.value, h v below]

theorem value (h : Agrees bound env env') {i : Instruction} (below : i.Below bound) {o : Operand}
    (ho : o ∈ i.operands) : o.value inputs env' = o.value inputs env :=
  h.operand ((Instruction.below_iff.mp below).2 o ho)

end Environment.Agrees

namespace Program

variable {code code' : List Instruction}

/-- What follows an instruction goes on alike from environments that agree. -/
def Alike (inputs : String → Option Int64) (bound : Nat) (code code' : List Instruction) : Prop :=
  ∀ e e' : Environment, Environment.Agrees bound e e' → run inputs e' code' = run inputs e code

theorem run_binary_of_agrees {op : Operator} {dest : Variable} {lhs rhs lhs' rhs' : Operand}
    (agree : Environment.Agrees bound env env') (go : Alike inputs bound code code')
    (hl : lhs'.value inputs env' = lhs.value inputs env)
    (hr : rhs'.value inputs env' = rhs.value inputs env) :
    run inputs env' (.binary op dest lhs' rhs' :: code') =
      run inputs env (.binary op dest lhs rhs :: code) := by
  simp only [run, hl, hr]
  cases lhs.value inputs env with
  | error e => rfl
  | ok a =>
    cases rhs.value inputs env with
    | error e => rfl
    | ok b => exact go _ _ (agree.insert dest _)

theorem run_sum_comm (dest v : Variable) (n : Int64) :
    run inputs env (.binary .add dest (.imm n) (.var v) :: code) =
      run inputs env (.binary .add dest (.var v) (.imm n) :: code) := by
  simp only [run, Operand.value, Operator.apply]
  cases env[v]? <|> _ with
  | none => rfl
  | some a => simp only [Int64.add_comm]

theorem run_normalSum {dest v : Variable} {n : Int64} {next : Nat}
    (agree : Environment.Agrees bound env env') (go : Alike inputs bound code code')
    (below : (Instruction.binary .add dest (.var v) (.imm n)).Below bound) (hn : bound ≤ next) :
    run inputs env' (Instruction.normalSum next dest v n ++ code') =
      run inputs env (.binary .add dest (.var v) (.imm n) :: code) := by
  unfold Instruction.normalSum
  split
  · exact run_binary_of_agrees agree go (agree.value below (by simp [Instruction.operands])) rfl
  · have moved := agree.insert_temp hn n
    exact run_binary_of_agrees moved go (moved.value below (by simp [Instruction.operands]))
      (by simp [Operand.value])

theorem run_normal {i : Instruction} {next : Nat} (agree : Environment.Agrees bound env env')
    (below : i.Below bound) (hn : bound ≤ next)
    (go : i.isReturn = false → Alike inputs bound code code') :
    run inputs env' (i.normal next ++ code') = run inputs env (i :: code) := by
  have value {o : Operand} (ho : o ∈ i.operands) : o.value inputs env' = o.value inputs env :=
    agree.value below ho
  cases i with
  | ret o =>
    simp only [Instruction.normal, List.singleton_append, run]
    rw [value (by simp [Instruction.operands])]
  | move dest src =>
    simp only [Instruction.normal, List.singleton_append, run]
    rw [value (by simp [Instruction.operands])]
    cases src.value inputs env with
    | error e => rfl
    | ok n => exact go rfl _ _ (agree.insert dest n)
  | binary op dest lhs rhs =>
    have alike : Alike inputs bound code code' := go rfl
    have moved (n : Int64) := agree.insert_temp hn n
    cases lhs with
    | imm a =>
      cases rhs with
      | imm b => exact alike _ _ (agree.insert dest _)
      | var v =>
        have left (op : Operator) (h : (Instruction.binary op dest (.imm a) (.var v)).Below bound) :
            run inputs env' (.move (.temp next) (.imm a) ::
              .binary op dest (.var (.temp next)) (.var v) :: code') =
              run inputs env (.binary op dest (.imm a) (.var v) :: code) :=
          run_binary_of_agrees (moved a) alike (by simp [Operand.value])
            ((moved a).value h (by simp [Instruction.operands]))
        cases op with
        | add => rw [run_sum_comm]; exact run_normalSum agree alike below hn
        | sub => exact left _ below
        | mul => exact left _ below
    | var w =>
      cases rhs with
      | imm b =>
        have right (op : Operator)
            (h : (Instruction.binary op dest (.var w) (.imm b)).Below bound) :
            run inputs env' (.move (.temp next) (.imm b) ::
              .binary op dest (.var w) (.var (.temp next)) :: code') =
              run inputs env (.binary op dest (.var w) (.imm b) :: code) :=
          run_binary_of_agrees (moved b) alike ((moved b).value h (by simp [Instruction.operands]))
            (by simp [Operand.value])
        cases op with
        | add => exact run_normalSum agree alike below hn
        | sub => exact right _ below
        | mul => exact right _ below
      | var v =>
        have kept (op : Operator) :
            (Instruction.binary op dest (.var w) (.var v)).normal next =
              [.binary op dest (.var w) (.var v)] := by
          cases op <;> rfl
        rw [kept]
        exact run_binary_of_agrees agree alike (value (by simp [Instruction.operands]))
          (value (by simp [Instruction.operands]))

/-- The run lemma: what instructions become in normal form does what they do. -/
theorem run_normalAll {instructions : List Instruction} {next : Nat}
    (agree : Environment.Agrees bound env env') (below : ∀ i ∈ instructions, i.Below bound)
    (hn : bound ≤ next) :
    run inputs env' (Instruction.normalAll next instructions) = run inputs env instructions := by
  induction instructions generalizing next env env' with
  | nil => rfl
  | cons i rest ih =>
    refine run_normal agree (below i (by simp)) hn ?_
    intro goesOn e e' agree
    rw [if_neg (by simp [goesOn])]
    exact ih agree (fun j hj => below j (by simp [hj])) (by omega)

end Program

end Agreement

/-- Bringing a program to normal form changes nothing about its evaluation. -/
theorem Program.evaluate_normalize (p : Program) (reserved : p.Reserved)
    (inputs : String → Option Int64) :
    p.normalize.program.evaluate inputs = p.evaluate inputs := by
  rw [evaluate, normalize_instructions]
  exact run_normalAll (.refl p.nextTemp ∅) reserved (Nat.le_refl _)

/-- A difference whose immediate is moved away, a sum that is turned around, and a product with an
immediate: the variable `y`, which is not set, is still the one complained about. -/
theorem Program.evaluate_normalize_unset :
    let p := Program.ofInstructions
      [.binary .sub (.temp 0) (.imm 5) (.var (.named "x")),
        .binary .add (.temp 1) (.imm 4096) (.var (.temp 0)),
        .binary .mul (.temp 2) (.var (.named "y")) (.imm 3), .ret (.var (.temp 2))]
    let inputs := fun name => if name = "x" then some 2 else none
    p.Reserved ∧ p.normalize.program.evaluate inputs = p.evaluate inputs ∧
      p.evaluate inputs = .error (.invariant (.unsetVariable (.named "y"))) :=
  ⟨reserved_ofInstructions _, evaluate_normalize _ (reserved_ofInstructions _) _, by rfl⟩

end Straightline
