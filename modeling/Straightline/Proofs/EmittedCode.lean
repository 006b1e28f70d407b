import Straightline.Proofs.Reference
import Straightline.Proofs.Renaming

/-!
# The code of a parse tree is what is emitted

A run over the leaves of a program's tree, followed by the emitting observer alone, accepts, and
what the observer hands over is the code of the tree, with one temporary for each operator in it.
Evaluating the code for given inputs returns what executing the statements on them returns. An
observer that was used before emits the same code with higher temporaries, behind what it has
(`Subscriber.follow_reused`).
-/
namespace Straightline

open Grammar

/-! ### Operators in a tree -/

/-- The nodes of a forest that apply an operator to two operands. -/
def Grammar.Forest.operators {g : Grammar} : {α : List Symbol} → Forest g α → Nat
  | _, nil => 0
  | _, token _ _ more => more.operators
  | _, node p _ _ children more =>
    (if p ∈ Operator.all.map Operator.production then 1 else 0) + children.operators +
      more.operators

theorem Grammar.Forest.operators_append {g : Grammar} {α β : List Symbol} (f : Forest g α)
    (f' : Forest g β) : (f.append f').operators = f.operators + f'.operators := by
  induction f with
  | nil => simp [append, operators]
  | token t kind more ih => simp [append, operators, ih]
  | node p member head children more _ ih => simp [append, operators, ih, Nat.add_assoc]

theorem Expression.operators_forest {n : NonTerminal} (e : Expression n) :
    e.forest.operators = e.temporaries := by
  induction e with
  | arithmetic op lhs sign rhs ihl ihr =>
    have known : op.production ∈ Operator.all.map Operator.production := by cases op <;> decide
    show (if op.production ∈ Operator.all.map Operator.production then 1 else 0) +
      (lhs.forest.append (.token sign.token sign.kind rhs.forest)).operators + 0 = _
    rw [if_pos known, Forest.operators_append, ihl, Forest.operators, ihr, temporaries]
    omega
  | ofTerm inner ih =>
    show 0 + inner.forest.operators + 0 = _
    rw [ih, temporaries]
    omega
  | ofFactor inner ih =>
    show 0 + inner.forest.operators + 0 = _
    rw [ih, temporaries]
    omega
  | parenthesized left inner right ih =>
    show 0 + (inner.forest.append (.token right.token right.kind .nil)).operators + 0 = _
    rw [Forest.operators_append, ih, temporaries]
    simp [Forest.operators]
  | name v => rfl
  | literal n => rfl

theorem Statement.operators_forest (s : Statement) : s.forest.operators = s.temporaries := by
  cases s with
  | declaration type name => rfl
  | assignment name equals value =>
    show 0 + value.forest.operators + 0 = _
    rw [value.operators_forest, temporaries]
    omega
  | returning word value =>
    show 0 + value.forest.operators + 0 = _
    rw [value.operators_forest, temporaries]
    omega

theorem StatementList.operators_forest (l : StatementList) :
    l.forest.operators = Statement.temporariesAll l.statements := by
  induction l with
  | last s semicolon =>
    show 0 + (s.forest.append (.token semicolon.token semicolon.kind .nil)).operators + 0 = _
    rw [Forest.operators_append, s.operators_forest]
    simp [Forest.operators, statements, Statement.temporariesAll]
  | more s semicolon rest ih =>
    show 0 + (s.forest.append (.token semicolon.token semicolon.kind rest.forest)).operators + 0 = _
    rw [Forest.operators_append, s.operators_forest, Forest.operators, ih]
    simp [statements, Statement.temporariesAll]

theorem StatementList.operators_program (l : StatementList) :
    l.program.operators = Statement.temporariesAll l.statements := by
  show 0 + l.forest.operators + 0 = _
  rw [l.operators_forest]
  omega

/-! ### The run -/

namespace Subscriber

theorem tell_emitter {ms : List Move} {u u' : Emitter} (h : Emitter.observe.tell ms u = .ok () u')
    (w : Shared) :
    (Observer.all observe).tell ms (w, [.emitter u]) = .ok () (w, [.emitter u']) := by
  refine Observer.tell_map (f := fun u => (w, [emitter u])) ?_ h
  intro m u u' answered
  simp only [Observer.all, Observer.each, observe, answered]

/-- The run over tokens that start with the leaves of a program's tree and the end of input, with the
emitting observer alone, whatever it was used for before. -/
theorem follow_tree {t : Table} (built : Table.reference = .ok t) (l : StatementList) {e : Token}
    (ends : e.kind = .endOfInput) (rest : List Token) (w : Shared) (u : Emitter) :
    follow t.control (l.program.yield ++ e :: rest) (w, [.emitter u]) =
      .ok () (w, [.emitter
        ⟨.empty, (Statement.codeAll u.nextTemp l.statements).reverse ++ u.emitted,
          u.nextTemp + Statement.temporariesAll l.statements⟩]) := by
  have realizes := Table.realizes_reference built
  obtain ⟨ms, c, q, steps, accepts, made⟩ :=
    accepted_of_forest augmented_reference.toRooted realizes l.program ends rest
  have enough := weighingReference.length_lt_stepBudget augmented_reference.numbered realizes
    (by decide) steps
  exact Control.run_of_runFor (Control.runFor_of_accepted steps accepts
    (tell_emitter (Emitter.tell_of_moves made q u) w) enough)

theorem follow_program {t : Table} (built : Table.reference = .ok t) (l : StatementList) {e : Token}
    (ends : e.kind = .endOfInput) (w : Shared) :
    ∃ u : Emitter, follow t.control (l.program.yield ++ [e]) (w, [.emitter .empty]) =
        .ok () (w, [.emitter u]) ∧
      u.program = ⟨Statement.codeAll 0 l.statements, Statement.temporariesAll l.statements⟩ :=
  ⟨_, follow_tree built l ends [] w .empty,
    by simp [Emitter.program, Emitter.instructions, Emitter.empty]⟩

/-- The emitting observer translates parse trees exactly. Over the leaves of a program's tree, all
of whose literals can be read, and the end of input, the run accepts, and the observer hands over
the code of the tree's statements, which sets one temporary for each operator. Evaluation of that
code returns a value, or none, for given inputs if and only if execution of the statements does. -/
theorem follow_emitter (f : Forest reference [.nonTerminal .program]) {e : Token}
    (ends : e.kind = .endOfInput) (readable : Readable f.yield) (w : Shared) :
    ∃ t, Table.reference = .ok t ∧ (∃ l : StatementList, l.program = f) ∧
      ∀ l : StatementList, l.program = f → ∃ u : Emitter,
        follow t.control (f.yield ++ [e]) (w, [.emitter .empty]) = .ok () (w, [.emitter u]) ∧
        u.program = ⟨Statement.codeAll 0 l.statements, f.operators⟩ ∧
        ∀ inputs r, u.program.evaluate inputs = .ok r ↔
          Statement.execute inputs l.statements = .ok r := by
  obtain ⟨t, built⟩ := Table.exists_reference
  refine ⟨t, built, exists_program f readable, ?_⟩
  rintro l rfl
  obtain ⟨u, followed, code⟩ := follow_program built l ends w
  refine ⟨u, followed, by rw [code, l.operators_program], ?_⟩
  intro inputs r
  rw [code]
  exact Statement.run_codeAll l.statements (.initial inputs)

/-- The tree of `a = (1 - b) * c - 2; return a;`. -/
theorem follow_emitter_nested :
    let leaf (k : Kind) (lexeme : String) : Leaf k := ⟨⟨k, lexeme, 1, 1⟩, rfl⟩
    let one : Literal := ⟨⟨.intConst, "1", 1, 1⟩, rfl, 1, by decide⟩
    let two : Literal := ⟨⟨.intConst, "2", 1, 1⟩, rfl, 2, by decide⟩
    let inner : Expression .expr := .arithmetic .sub (.ofTerm (.ofFactor (.literal one)))
      (leaf .minus "-") (.ofFactor (.name (leaf .identifier "b")))
    let product : Expression .term := .arithmetic .mul
      (.ofFactor (.parenthesized (leaf .leftParen "(") inner (leaf .rightParen ")")))
      (leaf .star "*") (.name (leaf .identifier "c"))
    let value : Expression .expr := .arithmetic .sub (.ofTerm product) (leaf .minus "-")
      (.ofFactor (.literal two))
    let l : StatementList :=
      .more (.assignment (leaf .identifier "a") (leaf .assign "=") value) (leaf .semicolon ";")
        (.last (.returning (leaf .returnWord "return")
          (.ofTerm (.ofFactor (.name (leaf .identifier "a"))))) (leaf .semicolon ";"))
    let w : Shared := ⟨.empty, []⟩
    Readable l.program.yield ∧ ∃ t u, Table.reference = .ok t ∧
      follow t.control (l.program.yield ++ [⟨.endOfInput, "", 1, 1⟩]) (w, [.emitter .empty]) =
        .ok () (w, [.emitter u]) ∧
      u.program = ⟨[.binary .sub (.temp 0) (.imm 1) (.var (.named "b")),
        .binary .mul (.temp 1) (.var (.temp 0)) (.var (.named "c")),
        .binary .sub (.temp 2) (.var (.temp 1)) (.imm 2),
        .move (.named "a") (.var (.temp 2)), .ret (.var (.named "a"))], 3⟩ := by
  intro leaf one two inner product value l w
  have readable : Readable l.program.yield := by decide
  obtain ⟨t, built, -, runs⟩ :=
    follow_emitter l.program (e := ⟨.endOfInput, "", 1, 1⟩) rfl readable w
  obtain ⟨u, followed, code, -⟩ := runs l rfl
  refine ⟨readable, t, u, built, followed, ?_⟩
  rw [code, l.operators_program]
  rfl

/-- An emitting observer can be used again after any runs, whatever these left on its stack. Tokens
that are accepted and whose literals can be read are those of a program. A fresh observer emits its
code; the one that is used again adds this code with each temporary numbered higher by the number of
its next one, and its stack ends empty. -/
theorem follow_reused {t : Table} (built : Table.reference = .ok t) {tokens : List Token}
    {w : Shared} {r : Shared × List Subscriber}
    (accepted : follow t.control tokens (w, []) = .ok () r) (readable : Readable tokens)
    (u : Emitter) :
    ∃ fresh v : Emitter,
      follow t.control tokens (w, [.emitter .empty]) = .ok () (w, [.emitter fresh]) ∧
      follow t.control tokens (w, [.emitter u]) = .ok () (w, [.emitter v]) ∧
      (∃ (l : StatementList) (e : Token) (rest : List Token), e.kind = .endOfInput ∧
        tokens = l.program.yield ++ e :: rest ∧
        fresh.program =
          ⟨Statement.codeAll 0 l.statements, Statement.temporariesAll l.statements⟩) ∧
      v.instructions = u.instructions ++
        fresh.instructions.map (Instruction.rename (Variable.raise u.nextTemp)) ∧
      v.nextTemp = u.nextTemp + fresh.nextTemp ∧ v.stack = .empty := by
  obtain ⟨f, e, rest, -, -, ends, rfl, -, -⟩ := (Control.returns_of_run accepted).exists_forest
    augmented_reference.toRooted (Table.realizes_reference built)
  obtain ⟨l, rfl⟩ := exists_program f (readable_append.mp readable).1
  have code := Statement.codeAll_add l.statements 0 u.nextTemp
  rw [Nat.zero_add] at code
  refine ⟨_, _, follow_tree built l ends rest w .empty, follow_tree built l ends rest w u,
    ⟨l, e, rest, ends, rfl, ?_⟩, ?_, ?_, rfl⟩
  · simp [Emitter.program, Emitter.instructions, Emitter.empty]
  · simp [Emitter.instructions, Emitter.empty, code]
  · simp [Emitter.empty]

/-- The tokens of `return 2 * y;`, for an observer that has emitted a sum and was left with a target
and a value on its stack. -/
theorem follow_reused_stale :
    let tokens : List Token := [⟨.returnWord, "return", 1, 1⟩, ⟨.intConst, "2", 1, 8⟩,
      ⟨.star, "*", 1, 10⟩, ⟨.identifier, "y", 1, 12⟩, ⟨.semicolon, ";", 1, 13⟩,
      ⟨.endOfInput, "", 1, 14⟩]
    let sum : Instruction := .binary .add (.temp 0) (.var (.named "y")) (.imm 1)
    let stack : AttributeStack Operand := ⟨[⟨.nonTerminal .expr, some (.var (.temp 0))⟩,
      ⟨.token ⟨.assign, "=", 1, 3⟩, none⟩,
      ⟨.token ⟨.identifier, "x", 1, 1⟩, some (.var (.named "x"))⟩]⟩
    let w : Shared := ⟨.empty, []⟩
    Readable tokens ∧ ∃ t r fresh v, Table.reference = .ok t ∧
      follow t.control tokens (w, []) = .ok () r ∧
      follow t.control tokens (w, [.emitter .empty]) = .ok () (w, [.emitter fresh]) ∧
      follow t.control tokens (w, [.emitter ⟨stack, [sum], 1⟩]) = .ok () (w, [.emitter v]) ∧
      fresh.program = ⟨[.binary .mul (.temp 0) (.imm 2) (.var (.named "y")),
        .ret (.var (.temp 0))], 1⟩ ∧
      v.program = ⟨[sum, .binary .mul (.temp 1) (.imm 2) (.var (.named "y")),
        .ret (.var (.temp 1))], 2⟩ ∧
      v.instructions = sum :: fresh.instructions.map (Instruction.rename (Variable.raise 1)) ∧
      v.nextTemp = 1 + fresh.nextTemp ∧ v.stack = .empty := by
  intro tokens sum stack w
  have readable : Readable tokens := by decide
  have emits : (do
      let t ← Table.reference
      let followed := stateOf (follow t.control tokens (w, [.emitter .empty]))
      return ((EStateM.run' (follow t.control tokens) (w, [])).isSome, followed.2.map fun s =>
        s.casesOn (fun _ => none) (some ·.program) (fun _ => none) (fun _ => none))) =
      (Except.ok (true, [some ⟨[.binary .mul (.temp 0) (.imm 2) (.var (.named "y")),
        .ret (.var (.temp 0))], 1⟩]) : Except Error (Bool × List (Option Program))) := by
    decide +kernel
  obtain ⟨t, built, emits⟩ := bind_eq_ok.mp emits
  obtain ⟨accepts, emits⟩ := Prod.mk.inj (Except.ok.inj emits)
  obtain ⟨_, r, accepted⟩ := exists_of_isSome_run' accepts
  obtain ⟨fresh, v, first, again, -, code, next, drained⟩ :=
    follow_reused built accepted readable ⟨stack, [sum], 1⟩
  rw [first] at emits
  have emitted := Option.some.inj (List.cons.inj emits).1
  refine ⟨readable, t, r, fresh, v, built, accepted, first, again, emitted, ?_, code, next,
    drained⟩
  obtain ⟨instructions, number⟩ := Program.mk.inj emitted
  rw [Emitter.program, code, next, instructions, number]
  rfl

end Subscriber

end Straightline
