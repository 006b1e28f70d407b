import Straightline.Observer.Emitter
import Straightline.Proofs.Normalization
import Straightline.Proofs.Parsing
import Straightline.Proofs.ParseTrees

/-!
# Translation of parse trees

The three-address code of a parse tree, and the proof that the emitting observer, told the moves
that build the tree, emits it (`tell_program`). The code mentions only temporaries that it sets and
names only identifiers that the tree uses. Evaluating it returns what executing the tree returns
(`run_codeAll`): the variables keep the values of the store, and a temporary, once set, is not set
again.
-/
namespace Straightline

/-! ### Code of a tree -/

namespace Expression

variable {n : NonTerminal}

def temporaries : {n : NonTerminal} → Expression n → Nat
  | _, arithmetic _ lhs _ rhs => lhs.temporaries + rhs.temporaries + 1
  | _, ofTerm inner => inner.temporaries
  | _, ofFactor inner => inner.temporaries
  | _, parenthesized _ inner _ => inner.temporaries
  | _, name _ => 0
  | _, literal _ => 0

/-- What the value of an expression is read from, behind its code. -/
def operand (next : Nat) : {n : NonTerminal} → Expression n → Operand
  | _, arithmetic _ lhs _ rhs => .var (.temp (next + lhs.temporaries + rhs.temporaries))
  | _, ofTerm inner => inner.operand next
  | _, ofFactor inner => inner.operand next
  | _, parenthesized _ inner _ => inner.operand next
  | _, name v => .var (.named v.token.lexeme)
  | _, literal n => .imm n.value

/-- The code of an expression, with the temporaries from a given number on. -/
def code (next : Nat) : {n : NonTerminal} → Expression n → List Instruction
  | _, arithmetic op lhs _ rhs =>
    lhs.code next ++ rhs.code (next + lhs.temporaries) ++
      [.binary op (.temp (next + lhs.temporaries + rhs.temporaries)) (lhs.operand next)
        (rhs.operand (next + lhs.temporaries))]
  | _, ofTerm inner => inner.code next
  | _, ofFactor inner => inner.code next
  | _, parenthesized _ inner _ => inner.code next
  | _, name _ => []
  | _, literal _ => []

end Expression

namespace Statement

def temporaries : Statement → Nat
  | declaration _ _ => 0
  | assignment _ _ value => value.temporaries
  | returning _ value => value.temporaries

def code (next : Nat) : Statement → List Instruction
  | declaration _ _ => []
  | assignment name _ value =>
    value.code next ++ [.move (.named name.token.lexeme) (value.operand next)]
  | returning _ value => value.code next ++ [.ret (value.operand next)]

def codeAll (next : Nat) : List Statement → List Instruction
  | [] => []
  | s :: rest => s.code next ++ codeAll (next + s.temporaries) rest

def temporariesAll : List Statement → Nat
  | [] => 0
  | s :: rest => s.temporaries + temporariesAll rest

end Statement

/-! ### The emitting observer -/

namespace Emitter

open Grammar

variable {entries : List (Attributed Operand)} {emitted : List Instruction} {next : Nat}

theorem observe_erase (m : Move) : observe m.erase = observe m := by
  cases m <;> rfl

theorem observe_mark {k : Kind} (l : Leaf k) (noName : k.category ≠ .identifier)
    (noLiteral : k.category ≠ .integerLiteral) :
    observe (.shift 0 l.token) ⟨⟨entries⟩, emitted, next⟩ =
      .ok () ⟨⟨⟨.token l.token, none⟩ :: entries⟩, emitted, next⟩ := by
  have value : tokenValue l.token = pure none := by
    unfold tokenValue
    rw [l.kind]
    split
    · exact absurd ‹_› noLiteral
    · exact absurd ‹_› noName
    · rfl
  simp only [observe, value]
  rfl

theorem observe_name (l : Leaf .identifier) :
    observe (.shift 0 l.token) ⟨⟨entries⟩, emitted, next⟩ =
      .ok ()
        ⟨⟨⟨.token l.token, some (.var (.named l.token.lexeme))⟩ :: entries⟩, emitted, next⟩ := by
  have value : tokenValue l.token = pure (some (.var (.named l.token.lexeme))) := by
    simp only [tokenValue, l.kind, Kind.category]
  simp only [observe, value]
  rfl

theorem observe_literal (n : Literal) :
    observe (.shift 0 n.token) ⟨⟨entries⟩, emitted, next⟩ =
      .ok () ⟨⟨⟨.token n.token, some (.imm n.value)⟩ :: entries⟩, emitted, next⟩ := by
  have value : tokenValue n.token = pure (some (.imm n.value)) := by
    simp only [tokenValue, n.kind, Kind.category, n.reads]
  simp only [observe, value]
  rfl

theorem observe_arithmetic (op : Operator) {s₁ s₂ s₃ : ParseSymbol} {lhs rhs : Operand}
    {v : Option Operand} :
    observe (.reduce 0 op.production)
        ⟨⟨⟨s₃, some rhs⟩ :: ⟨s₂, v⟩ :: ⟨s₁, some lhs⟩ :: entries⟩, emitted, next⟩ =
      .ok () ⟨⟨⟨.nonTerminal op.level, some (.var (.temp next))⟩ :: entries⟩,
        .binary op (.temp next) lhs rhs :: emitted, next + 1⟩ := by
  cases op <;> rfl

theorem tell_expression {n : NonTerminal} (e : Expression n) (entries : List (Attributed Operand))
    (emitted : List Instruction) (next : Nat) :
    observe.tell e.forest.moves ⟨⟨entries⟩, emitted, next⟩ =
      .ok () ⟨⟨⟨.nonTerminal n, some (e.operand next)⟩ :: entries⟩,
        (e.code next).reverse ++ emitted, next + e.temporaries⟩ := by
  induction e generalizing entries emitted next with
  | arithmetic op lhs sign rhs ihl ihr =>
    have plain : op.sign.category ≠ .identifier ∧ op.sign.category ≠ .integerLiteral := by
      cases op <;> decide
    show observe.tell ((lhs.forest.append (.token sign.token sign.kind rhs.forest)).moves ++
      [.reduce 0 op.production]) _ = _
    rw [Forest.moves_append, List.append_assoc, Observer.tell_append (ihl ..), Forest.moves,
      List.cons_append, Observer.tell_cons (observe_mark sign plain.1 plain.2),
      Observer.tell_append (ihr ..), Observer.tell_cons (observe_arithmetic op)]
    show EStateM.Result.ok () _ = _
    simp [Expression.code, Expression.operand, Expression.temporaries, Nat.add_assoc]
  | ofTerm inner ih =>
    show observe.tell (inner.forest.moves ++ [.reduce 0 _]) _ = _
    rw [Observer.tell_append (ih ..)]
    rfl
  | ofFactor inner ih =>
    show observe.tell (inner.forest.moves ++ [.reduce 0 _]) _ = _
    rw [Observer.tell_append (ih ..)]
    rfl
  | parenthesized left inner right ih =>
    show observe.tell (.shift 0 left.token ::
      ((inner.forest.append (.token right.token right.kind .nil)).moves ++ [.reduce 0 _])) _ = _
    rw [Observer.tell_cons (observe_mark left (by decide) (by decide)), Forest.moves_append,
      List.append_assoc, Observer.tell_append (ih ..), Forest.moves, List.cons_append,
      Observer.tell_cons (observe_mark right (by decide) (by decide))]
    rfl
  | name v =>
    show observe.tell [.shift 0 v.token, .reduce 0 _] _ = _
    rw [Observer.tell_cons (observe_name v)]
    rfl
  | literal n =>
    show observe.tell [.shift 0 n.token, .reduce 0 _] _ = _
    rw [Observer.tell_cons (observe_literal n)]
    rfl

theorem tell_statement (s : Statement) (entries : List (Attributed Operand))
    (emitted : List Instruction) (next : Nat) :
    observe.tell s.forest.moves ⟨⟨entries⟩, emitted, next⟩ =
      .ok () ⟨⟨⟨.nonTerminal .statement, none⟩ :: entries⟩, (s.code next).reverse ++ emitted,
        next + s.temporaries⟩ := by
  cases s with
  | declaration type name =>
    show observe.tell [.shift 0 type.token, .reduce 0 _, .shift 0 name.token, .reduce 0 _] _ = _
    rw [Observer.tell_cons (observe_mark type (by decide) (by decide)), Observer.tell_cons rfl,
      Observer.tell_cons (observe_name name)]
    rfl
  | assignment name equals value =>
    show observe.tell (.shift 0 name.token :: .shift 0 equals.token ::
      (value.forest.moves ++ [.reduce 0 _])) _ = _
    rw [Observer.tell_cons (observe_name name),
      Observer.tell_cons (observe_mark equals (by decide) (by decide)),
      Observer.tell_append (tell_expression value _ _ _), Observer.tell_cons rfl]
    show EStateM.Result.ok () _ = _
    simp [Statement.code, Statement.temporaries, AttributeStack.push]
  | returning word value =>
    show observe.tell (.shift 0 word.token :: (value.forest.moves ++ [.reduce 0 _])) _ = _
    rw [Observer.tell_cons (observe_mark word (by decide) (by decide)),
      Observer.tell_append (tell_expression value _ _ _), Observer.tell_cons rfl]
    show EStateM.Result.ok () _ = _
    simp [Statement.code, Statement.temporaries, AttributeStack.push]

theorem tell_statements (l : StatementList) (entries : List (Attributed Operand))
    (emitted : List Instruction) (next : Nat) :
    observe.tell l.forest.moves ⟨⟨entries⟩, emitted, next⟩ =
      .ok () ⟨⟨⟨.nonTerminal .statementList, none⟩ :: entries⟩,
        (Statement.codeAll next l.statements).reverse ++ emitted,
        next + Statement.temporariesAll l.statements⟩ := by
  induction l generalizing entries emitted next with
  | last s semicolon =>
    show observe.tell ((s.forest.append (.token semicolon.token semicolon.kind .nil)).moves ++
      [.reduce 0 _]) _ = _
    rw [Forest.moves_append, List.append_assoc, Observer.tell_append (tell_statement s _ _ _),
      Forest.moves, List.cons_append,
      Observer.tell_cons (observe_mark semicolon (by decide) (by decide)), Forest.moves,
      List.nil_append, Observer.tell_cons rfl]
    show EStateM.Result.ok () _ = _
    simp [StatementList.statements, Statement.codeAll, Statement.temporariesAll,
      AttributeStack.push]
  | more s semicolon rest ih =>
    show observe.tell
      ((s.forest.append (.token semicolon.token semicolon.kind rest.forest)).moves ++
        [.reduce 0 _]) _ = _
    rw [Forest.moves_append, List.append_assoc, Observer.tell_append (tell_statement s _ _ _),
      Forest.moves, List.cons_append,
      Observer.tell_cons (observe_mark semicolon (by decide) (by decide)),
      Observer.tell_append (ih ..), Observer.tell_cons rfl]
    show EStateM.Result.ok () _ = _
    simp [StatementList.statements, Statement.codeAll, Statement.temporariesAll,
      AttributeStack.push, Nat.add_assoc]

/-- The observer that is told the moves of a program's tree emits the program's code, numbered from
its next temporary on, behind what it has emitted before. What was left on its stack stays below
what the tree's moves put there, until acceptance empties it. -/
theorem tell_program (l : StatementList) (state : Nat) (u : Emitter) :
    observe.tell (l.program.moves ++ [.accept state]) u =
      .ok () ⟨.empty, (Statement.codeAll u.nextTemp l.statements).reverse ++ u.emitted,
        u.nextTemp + Statement.temporariesAll l.statements⟩ := by
  obtain ⟨⟨entries⟩, emitted, next⟩ := u
  show observe.tell (l.forest.moves ++ [.reduce 0 _] ++ [.accept state]) _ = _
  rw [List.append_assoc, Observer.tell_append (tell_statements l _ _ _), List.cons_append,
    Observer.tell_cons rfl, List.nil_append, Observer.tell_cons rfl]
  rfl

theorem tell_of_moves {l : StatementList} {ms : List Move}
    (made : l.program.moves = ms.map Move.erase) (state : Nat) (u : Emitter) :
    observe.tell (ms ++ [.accept state]) u =
      .ok () ⟨.empty, (Statement.codeAll u.nextTemp l.statements).reverse ++ u.emitted,
        u.nextTemp + Statement.temporariesAll l.statements⟩ := by
  rw [← Observer.tell_erase observe_erase, List.map_append, ← made]
  exact tell_program l 0 u

end Emitter

/-! ### Temporaries -/

theorem Expression.operand_below {n : NonTerminal} (e : Expression n) (next : Nat) :
    (e.operand next).Below (next + e.temporaries) := by
  induction e with
  | arithmetic op lhs sign rhs _ _ =>
    show next + lhs.temporaries + rhs.temporaries < next + (lhs.temporaries + rhs.temporaries + 1)
    omega
  | ofTerm inner ih => exact ih
  | ofFactor inner ih => exact ih
  | parenthesized left inner right ih => exact ih
  | name v => trivial
  | literal n => trivial

theorem Expression.code_below {n : NonTerminal} (e : Expression n) (next : Nat) :
    ∀ i ∈ e.code next, i.Below (next + e.temporaries) := by
  induction e generalizing next with
  | arithmetic op lhs sign rhs ihl ihr =>
    have left : next + lhs.temporaries ≤ next + (lhs.temporaries + rhs.temporaries + 1) := by omega
    have right : next + lhs.temporaries + rhs.temporaries ≤
        next + (lhs.temporaries + rhs.temporaries + 1) := by omega
    intro i hi
    rcases List.mem_append.mp hi with hi | hi
    · rcases List.mem_append.mp hi with hi | hi
      · exact (ihl next i hi).mono left
      · exact (ihr _ i hi).mono right
    · obtain rfl := List.mem_singleton.mp hi
      refine Instruction.below_iff.mpr ⟨?_, ?_⟩
      · rintro v ⟨⟩
        exact operand_below (.arithmetic op lhs sign rhs) next
      · rintro o (_ | ⟨_, _ | ⟨_, ⟨⟩⟩⟩)
        · exact (lhs.operand_below next).mono left
        · exact (rhs.operand_below _).mono right
  | ofTerm inner ih => exact ih next
  | ofFactor inner ih => exact ih next
  | parenthesized left inner right ih => exact ih next
  | name v => simp [code]
  | literal n => simp [code]

theorem Statement.codeAll_below (l : List Statement) (next : Nat) :
    ∀ i ∈ codeAll next l, i.Below (next + temporariesAll l) := by
  induction l generalizing next with
  | nil => simp [codeAll]
  | cons s rest ih =>
    rw [temporariesAll]
    have own : next + s.temporaries ≤ next + (s.temporaries + temporariesAll rest) := by omega
    intro i hi
    rcases List.mem_append.mp hi with hi | hi
    · refine Instruction.Below.mono ?_ own
      cases s with
      | declaration type name => cases hi
      | assignment name equals value =>
        rcases List.mem_append.mp hi with hi | hi
        · exact value.code_below next i hi
        · obtain rfl := List.mem_singleton.mp hi
          refine Instruction.below_iff.mpr ⟨?_, ?_⟩
          · rintro v ⟨⟩
            trivial
          · rintro o (_ | ⟨_, ⟨⟩⟩)
            exact value.operand_below next
      | returning word value =>
        rcases List.mem_append.mp hi with hi | hi
        · exact value.code_below next i hi
        · obtain rfl := List.mem_singleton.mp hi
          refine Instruction.below_iff.mpr ⟨?_, ?_⟩
          · rintro v ⟨⟩
          · rintro o (_ | ⟨_, ⟨⟩⟩)
            exact value.operand_below next
    · exact (ih _ i hi).mono (by omega)

/-! ### Names -/

def Expression.references : {n : NonTerminal} → Expression n → List Token
  | _, arithmetic _ lhs _ rhs => lhs.references ++ rhs.references
  | _, ofTerm inner => inner.references
  | _, ofFactor inner => inner.references
  | _, parenthesized _ inner _ => inner.references
  | _, name v => [v.token]
  | _, literal _ => []

/-- The identifiers that a statement uses: those it reads, then the one it assigns. -/
def Statement.references : Statement → List Token
  | declaration _ _ => []
  | assignment name _ value => value.references ++ [name.token]
  | returning _ value => value.references

section Names

variable {x : String} {t : Token}

theorem Expression.exists_reference_of_operand {n : NonTerminal} (e : Expression n) {next : Nat}
    (h : e.operand next = .var (.named x)) : ∃ t ∈ e.references, t.lexeme = x := by
  induction e with
  | arithmetic op lhs sign rhs _ _ => cases h
  | ofTerm inner ih => exact ih h
  | ofFactor inner ih => exact ih h
  | parenthesized left inner right ih => exact ih h
  | name v =>
    cases h
    exact ⟨v.token, List.mem_singleton_self _, rfl⟩
  | literal n => cases h

theorem Expression.exists_reference {n : NonTerminal} (e : Expression n) {next : Nat}
    (h : .named x ∈ (e.code next).flatMap (·.occurrences)) : ∃ t ∈ e.references, t.lexeme = x := by
  induction e generalizing next with
  | arithmetic op lhs sign rhs ihl ihr =>
    rw [references]
    rw [code, List.flatMap_append, List.flatMap_append, List.mem_append, List.mem_append] at h
    rcases h with (h | h) | h
    · obtain ⟨t, ht, same⟩ := ihl h
      exact ⟨t, List.mem_append_left _ ht, same⟩
    · obtain ⟨t, ht, same⟩ := ihr h
      exact ⟨t, List.mem_append_right _ ht, same⟩
    · rw [List.flatMap_singleton, Instruction.mem_occurrences] at h
      rcases h with ⟨⟨⟩⟩ | h
      rcases List.mem_cons.mp h with h | h
      · obtain ⟨t, ht, same⟩ := lhs.exists_reference_of_operand h.symm
        exact ⟨t, List.mem_append_left _ ht, same⟩
      · obtain ⟨t, ht, same⟩ := rhs.exists_reference_of_operand (List.mem_singleton.mp h).symm
        exact ⟨t, List.mem_append_right _ ht, same⟩
  | ofTerm inner ih => exact ih h
  | ofFactor inner ih => exact ih h
  | parenthesized left inner right ih => exact ih h
  | name v => cases h
  | literal n => cases h

theorem Statement.exists_reference {s : Statement} {next : Nat}
    (h : .named x ∈ (s.code next).flatMap (·.occurrences)) : ∃ t ∈ s.references, t.lexeme = x := by
  cases s with
  | declaration type name => cases h
  | assignment name equals value =>
    rw [references]
    rw [code, List.flatMap_append, List.mem_append] at h
    rcases h with h | h
    · obtain ⟨t, ht, same⟩ := value.exists_reference h
      exact ⟨t, List.mem_append_left _ ht, same⟩
    · rw [List.flatMap_singleton, Instruction.mem_occurrences] at h
      rcases h with ⟨⟨⟩⟩ | h
      · exact ⟨name.token, by simp, rfl⟩
      · obtain ⟨t, ht, same⟩ := value.exists_reference_of_operand (List.mem_singleton.mp h).symm
        exact ⟨t, List.mem_append_left _ ht, same⟩
  | returning word value =>
    rw [code, List.flatMap_append, List.mem_append] at h
    rcases h with h | h
    · exact value.exists_reference h
    · rw [List.flatMap_singleton, Instruction.mem_occurrences] at h
      rcases h with ⟨⟨⟩⟩ | h
      exact value.exists_reference_of_operand (List.mem_singleton.mp h).symm

theorem Statement.exists_reference_of_codeAll {l : List Statement} {next : Nat}
    (h : .named x ∈ (codeAll next l).flatMap (·.occurrences)) :
    ∃ s ∈ l, ∃ t ∈ s.references, t.lexeme = x := by
  induction l generalizing next with
  | nil => cases h
  | cons s rest ih =>
    rw [codeAll, List.flatMap_append, List.mem_append] at h
    rcases h with h | h
    · exact ⟨s, List.mem_cons_self, exists_reference h⟩
    · obtain ⟨s', member, found⟩ := ih h
      exact ⟨s', List.mem_cons_of_mem s member, found⟩

theorem Expression.mem_yield_of_mem_references {n : NonTerminal} (e : Expression n)
    (h : t ∈ e.references) : t ∈ e.forest.yield ∧ t.kind = .identifier := by
  induction e with
  | arithmetic op lhs sign rhs ihl ihr =>
    show t ∈ (lhs.forest.append (.token sign.token sign.kind rhs.forest)).yield ++ [] ∧ _
    rcases List.mem_append.mp h with h | h
    · simp [ihl h]
    · simp [Grammar.Forest.yield, ihr h]
  | ofTerm inner ih =>
    show t ∈ inner.forest.yield ++ [] ∧ _
    simp [ih h]
  | ofFactor inner ih =>
    show t ∈ inner.forest.yield ++ [] ∧ _
    simp [ih h]
  | parenthesized left inner right ih =>
    show t ∈ left.token :: (inner.forest.append (.token right.token right.kind .nil)).yield ++ [] ∧
      _
    simp [ih h]
  | name v =>
    obtain rfl := List.mem_singleton.mp h
    exact ⟨List.mem_cons_self, v.kind⟩
  | literal n => cases h

theorem Statement.mem_yield_of_mem_references (s : Statement) (h : t ∈ s.references) :
    t ∈ s.forest.yield ∧ t.kind = .identifier := by
  cases s with
  | declaration type name => cases h
  | assignment name equals value =>
    show t ∈ name.token :: equals.token :: value.forest.yield ++ [] ∧ _
    rcases List.mem_append.mp h with h | h
    · simp [value.mem_yield_of_mem_references h]
    · obtain rfl := List.mem_singleton.mp h
      exact ⟨List.mem_cons_self, name.kind⟩
  | returning word value =>
    show t ∈ word.token :: value.forest.yield ++ [] ∧ _
    simp [value.mem_yield_of_mem_references h]

theorem StatementList.mem_yield_of_mem_statements (l : StatementList) {s : Statement}
    (member : s ∈ l.statements) (h : t ∈ s.forest.yield) : t ∈ l.forest.yield := by
  induction l with
  | last s' semicolon =>
    obtain rfl := List.mem_singleton.mp member
    show t ∈ (s.forest.append (.token semicolon.token semicolon.kind .nil)).yield ++ []
    simp [h]
  | more s' semicolon rest ih =>
    show t ∈ (s'.forest.append (.token semicolon.token semicolon.kind rest.forest)).yield ++ []
    rcases List.mem_cons.mp member with rfl | member
    · simp [h]
    · simp [Grammar.Forest.yield, ih member]

theorem StatementList.mem_yield_of_mem_references (l : StatementList) {s : Statement}
    (member : s ∈ l.statements) (h : t ∈ s.references) :
    t ∈ l.forest.yield ∧ t.kind = .identifier := by
  obtain ⟨leaf, identifier⟩ := s.mem_yield_of_mem_references h
  exact ⟨l.mem_yield_of_mem_statements member leaf, identifier⟩

end Names

/-! ### Evaluation of the code -/

variable {inputs : String → Option Int64}

/-- An environment that, with the inputs behind it, gives every name what a store gives it. -/
def Environment.Mirrors (inputs : String → Option Int64) (env : Environment) (store : Store) :
    Prop :=
  ∀ name, (env[Variable.named name]? <|> inputs name) = store name

namespace Environment.Mirrors

variable {env env' : Environment} {store : Store}

theorem initial (inputs : String → Option Int64) : Mirrors inputs ∅ inputs := by
  intro name
  simp

theorem of_agrees {bound : Nat} (h : env.Mirrors inputs store) (agree : Agrees bound env env') :
    env'.Mirrors inputs store := by
  intro name
  rw [agree (.named name) trivial]
  exact h name

theorem assign (h : env.Mirrors inputs store) (name : String) (n : Int64) :
    Mirrors inputs (env.insert (.named name) n) fun x => if x = name then some n else store x := by
  intro x
  by_cases same : x = name
  · simp [same]
  · simp [Std.TreeMap.getElem?_insert, same, Ne.symm same, ← h x]

theorem value_eq_ok_iff (h : env.Mirrors inputs store) {name : String} {v : Int64} :
    (Operand.var (.named name)).value inputs env = .ok v ↔ store name = some v := by
  rw [← h name, Operand.value]
  cases env[Variable.named name]? <|> inputs name <;> simp

end Environment.Mirrors

/-- The code of an expression in front of instructions that start by reading its operand. If these
return `x` exactly for the values with some property, then the code and these do so exactly where
the expression has such a value. -/
theorem Expression.run_code {n : NonTerminal} (e : Expression n) {next : Nat} {env : Environment}
    {store : Store} (mirrors : env.Mirrors inputs store) {rest : List Instruction}
    {x : Option Int64} {P : Int64 → Prop}
    (reads : ∀ env', Environment.Agrees next env env' →
      (Program.run inputs env' rest = .ok x ↔
        ∃ v, (e.operand next).value inputs env' = .ok v ∧ P v)) :
    Program.run inputs env (e.code next ++ rest) = .ok x ↔
      ∃ v, e.value store = .ok v ∧ P v := by
  induction e generalizing next env rest P with
  | arithmetic op lhs sign rhs ihl ihr =>
    rw [code, List.append_assoc, List.append_assoc]
    have whole : (∃ v, (arithmetic op lhs sign rhs).value store = .ok v ∧ P v) ↔
        ∃ a, lhs.value store = .ok a ∧ ∃ b, rhs.value store = .ok b ∧ P (op.apply a b) := by
      simp only [value_arithmetic_eq_ok]
      grind
    rw [whole]
    refine ihl mirrors ?_
    intro env₁ agree₁
    have behind : Program.run inputs env₁ (rhs.code (next + lhs.temporaries) ++
          ([.binary op (.temp (next + lhs.temporaries + rhs.temporaries)) (lhs.operand next)
            (rhs.operand (next + lhs.temporaries))] ++ rest)) = .ok x ↔
        ∃ b, rhs.value store = .ok b ∧
          ∃ a, (lhs.operand next).value inputs env₁ = .ok a ∧ P (op.apply a b) := by
      refine ihr (mirrors.of_agrees agree₁) ?_
      intro env₂ agree₂
      -- the right side's temporaries are above what the left side's operand reads
      have left : (lhs.operand next).value inputs env₂ = (lhs.operand next).value inputs env₁ :=
        agree₂.operand (lhs.operand_below next)
      have kept := agree₁.trans (agree₂.mono (Nat.le_add_right _ _))
      have result (n : Int64) : Program.run inputs (env₂.insert
          (.temp (next + lhs.temporaries + rhs.temporaries)) n) rest = .ok x ↔ P n := by
        rw [reads _ (kept.insert_temp (by omega) n)]
        simp [operand]
      rw [List.singleton_append, Program.run_binary_eq_ok]
      simp only [left, result]
      grind
    rw [behind]
    grind
  | ofTerm inner ih => exact ih mirrors reads
  | ofFactor inner ih => exact ih mirrors reads
  | parenthesized left inner right ih => exact ih mirrors reads
  | name y =>
    refine (reads env (.refl next env)).trans (exists_congr fun v => and_congr_left fun _ => ?_)
    rw [value_name_eq_ok]
    exact mirrors.value_eq_ok_iff
  | literal n =>
    refine (reads env (.refl next env)).trans (exists_congr fun v => and_congr_left fun _ => ?_)
    simp [operand, Operand.value, value]

/-- The code of statements returns what executing them returns, from the same inputs. -/
theorem Statement.run_codeAll (l : List Statement) {next : Nat} {env : Environment} {store : Store}
    {x : Option Int64} (mirrors : env.Mirrors inputs store) :
    Program.run inputs env (codeAll next l) = .ok x ↔ execute store l = .ok x := by
  induction l generalizing next env store with
  | nil => simp [codeAll, Program.run, execute]
  | cons s rest ih =>
    rw [codeAll]
    cases s with
    | declaration type name => exact ih mirrors
    | assignment name equals value =>
      rw [code, List.append_assoc, execute_assignment_eq_ok]
      refine value.run_code mirrors ?_
      intro env' agree
      rw [List.singleton_append, Program.run_move_eq_ok]
      refine exists_congr fun n => and_congr_right' ?_
      exact ih ((mirrors.of_agrees agree).assign _ n)
    | returning word value =>
      rw [code, List.append_assoc, execute_returning_eq_ok]
      refine value.run_code mirrors ?_
      intro env' agree
      rw [List.singleton_append, Program.run_ret_eq_ok]
      simp only [eq_comm]

end Straightline
