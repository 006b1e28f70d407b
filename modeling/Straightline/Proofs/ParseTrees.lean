import Straightline.Proofs.Derivation
import Straightline.Proofs.Sequencing
import Straightline.Rule

/-!
# Parse trees of straight-line programs

The parse trees of the reference grammar with a constructor for each production, and what it means
to execute one: statements in order, up to the first return. Every tree of the grammar whose
literals can be read is one of these (`exists_program`).
-/
namespace Straightline

structure Leaf (k : Kind) where
  token : Token
  kind : token.kind = k

/-- A literal with the value that it spells. -/
structure Literal where
  token : Token
  kind : token.kind = .intConst
  value : Int64
  reads : Decimal.read? token.lexeme = some value

namespace Operator

def sign : Operator → Kind
  | add => .plus
  | sub => .minus
  | mul => .star

/-- What an operator builds, and takes on its left. -/
def level : Operator → NonTerminal
  | add | sub => .expr
  | mul => .term

/-- What an operator takes on its right. -/
def argument : Operator → NonTerminal
  | add | sub => .term
  | mul => .factor

def production (op : Operator) : Production where
  index := match op with
    | add => 8
    | sub => 9
    | mul => 11
  head := op.level
  body := [.nonTerminal op.level, .terminal op.sign, .nonTerminal op.argument]

theorem production_mem (op : Operator) : op.production ∈ Grammar.reference.productions := by
  cases op <;> decide

end Operator

/-- The trees of expressions, terms and factors. -/
inductive Expression : NonTerminal → Type where
  | arithmetic (op : Operator) (lhs : Expression op.level) (sign : Leaf op.sign)
    (rhs : Expression op.argument) : Expression op.level
  | ofTerm (inner : Expression .term) : Expression .expr
  | ofFactor (inner : Expression .factor) : Expression .term
  | parenthesized (left : Leaf .leftParen) (inner : Expression .expr) (right : Leaf .rightParen) :
    Expression .factor
  | name (v : Leaf .identifier) : Expression .factor
  | literal (n : Literal) : Expression .factor

/-- The trees of statements; the semicolon is not part of one. -/
inductive Statement where
  | declaration (type : Leaf .intWord) (name : Leaf .identifier)
  | assignment (name : Leaf .identifier) (equals : Leaf .assign) (value : Expression .expr)
  | returning (word : Leaf .returnWord) (value : Expression .expr)

inductive StatementList where
  | last (s : Statement) (semicolon : Leaf .semicolon)
  | more (s : Statement) (semicolon : Leaf .semicolon) (rest : StatementList)

/-! ### Execution -/

/-- The values of the variables that were assigned. -/
abbrev Store := String → Option Int64

/-- The value of an expression; the name of a variable that was never assigned is an error. -/
def Expression.value (store : Store) : {n : NonTerminal} → Expression n → Except String Int64
  | _, arithmetic op lhs _ rhs => do
    let a ← lhs.value store
    let b ← rhs.value store
    return op.apply a b
  | _, ofTerm inner => inner.value store
  | _, ofFactor inner => inner.value store
  | _, parenthesized _ inner _ => inner.value store
  | _, name v =>
    match store v.token.lexeme with
    | some n => .ok n
    | none => .error v.token.lexeme
  | _, literal n => .ok n.value

/-- The value that statements return, if they return. -/
def Statement.execute (store : Store) : List Statement → Except String (Option Int64)
  | [] => .ok none
  | declaration _ _ :: rest => execute store rest
  | assignment name _ value :: rest => do
    let n ← value.value store
    execute (fun x => if x = name.token.lexeme then some n else store x) rest
  | returning _ value :: _ => do
    let n ← value.value store
    return some n

theorem Expression.value_arithmetic_eq_ok {store : Store} {op : Operator}
    {lhs : Expression op.level} {sign : Leaf op.sign} {rhs : Expression op.argument} {v : Int64} :
    (arithmetic op lhs sign rhs).value store = .ok v ↔
      ∃ a b, lhs.value store = .ok a ∧ rhs.value store = .ok b ∧ op.apply a b = v := by
  rw [value, bind_eq_ok]
  simp only [bind_eq_ok, pure, Except.pure, Except.ok.injEq, exists_and_left]

theorem Expression.value_name_eq_ok {store : Store} {x : Leaf .identifier} {v : Int64} :
    (name x).value store = .ok v ↔ store x.token.lexeme = some v := by
  rw [value]
  cases store x.token.lexeme <;> simp

theorem Statement.execute_assignment_eq_ok {store : Store} {name : Leaf .identifier}
    {equals : Leaf .assign} {value : Expression .expr} {rest : List Statement} {x : Option Int64} :
    execute store (assignment name equals value :: rest) = .ok x ↔
      ∃ n, value.value store = .ok n ∧
        execute (fun x => if x = name.token.lexeme then some n else store x) rest = .ok x := by
  rw [execute, bind_eq_ok]

theorem Statement.execute_returning_eq_ok {store : Store} {word : Leaf .returnWord}
    {value : Expression .expr} {rest : List Statement} {x : Option Int64} :
    execute store (returning word value :: rest) = .ok x ↔
      ∃ n, value.value store = .ok n ∧ some n = x := by
  rw [execute, bind_eq_ok]
  simp only [pure, Except.pure, Except.ok.injEq]

def StatementList.statements : StatementList → List Statement
  | last s _ => [s]
  | more s _ rest => s :: rest.statements

/-! ### Trees of the grammar -/

open Grammar

def Expression.forest : {n : NonTerminal} → Expression n → Forest reference [.nonTerminal n]
  | _, arithmetic op lhs sign rhs =>
    .node op.production op.production_mem rfl
      (lhs.forest.append (.token sign.token sign.kind rhs.forest)) .nil
  | _, ofTerm inner =>
    .node ⟨10, .expr, [.nonTerminal .term]⟩ (by decide) rfl inner.forest .nil
  | _, ofFactor inner =>
    .node ⟨12, .term, [.nonTerminal .factor]⟩ (by decide) rfl inner.forest .nil
  | _, parenthesized left inner right =>
    .node ⟨13, .factor, [.terminal .leftParen, .nonTerminal .expr, .terminal .rightParen]⟩
      (by decide) rfl (.token left.token left.kind
        (inner.forest.append (.token right.token right.kind .nil))) .nil
  | _, name v =>
    .node ⟨14, .factor, [.terminal .identifier]⟩ (by decide) rfl (.token v.token v.kind .nil) .nil
  | _, literal n =>
    .node ⟨15, .factor, [.terminal .intConst]⟩ (by decide) rfl (.token n.token n.kind .nil) .nil

def Leaf.declarator (type : Leaf .intWord) : Forest reference [.nonTerminal .declarator] :=
  .node ⟨5, .declarator, [.terminal .intWord]⟩ (by decide) rfl (.token type.token type.kind .nil)
    .nil

def Statement.forest : Statement → Forest reference [.nonTerminal .statement]
  | declaration type name =>
    .node ⟨4, .statement, [.nonTerminal .declarator, .terminal .identifier]⟩ (by decide) rfl
      (type.declarator.append (.token name.token name.kind .nil)) .nil
  | assignment name equals value =>
    .node ⟨6, .statement, [.terminal .identifier, .terminal .assign, .nonTerminal .expr]⟩
      (by decide) rfl
      (.token name.token name.kind (.token equals.token equals.kind value.forest)) .nil
  | returning word value =>
    .node ⟨7, .statement, [.terminal .returnWord, .nonTerminal .expr]⟩ (by decide) rfl
      (.token word.token word.kind value.forest) .nil

def StatementList.forest : StatementList → Forest reference [.nonTerminal .statementList]
  | last s semicolon =>
    .node ⟨3, .statementList, [.nonTerminal .statement, .terminal .semicolon]⟩ (by decide) rfl
      (s.forest.append (.token semicolon.token semicolon.kind .nil)) .nil
  | more s semicolon rest =>
    .node ⟨2, .statementList,
        [.nonTerminal .statement, .terminal .semicolon, .nonTerminal .statementList]⟩
      (by decide) rfl
      (s.forest.append (.token semicolon.token semicolon.kind rest.forest)) .nil

def StatementList.program (l : StatementList) : Forest reference [.nonTerminal .program] :=
  .node ⟨1, .program, [.nonTerminal .statementList]⟩ (by decide) rfl l.forest .nil

theorem StatementList.yield_program (l : StatementList) : l.program.yield = l.forest.yield :=
  List.append_nil _

/-! ### Every tree of the grammar -/

namespace Grammar.Forest

variable {g : Grammar} {P : (n : NonTerminal) → Forest g [.nonTerminal n] → Prop}

/-- What holds of each tree in a forest. -/
def All (P : (n : NonTerminal) → Forest g [.nonTerminal n] → Prop) :
    {α : List Symbol} → Forest g α → Prop
  | _, nil => True
  | _, token _ _ more => more.All P
  | _, node p member head children more => P _ (node p member head children nil) ∧ more.All P

/-- Induction over trees: what passes from the children to a node holds everywhere. -/
theorem all_of_node
    (step : ∀ (p : Production) (member : p ∈ g.productions) (children : Forest g p.body),
      children.All P → P p.head (node p member rfl children nil))
    {α : List Symbol} (f : Forest g α) : f.All P := by
  induction f with
  | nil => trivial
  | token t kind more ih => exact ih
  | node p member head children more ihc ih =>
    subst head
    exact ⟨step p member children ihc, ih⟩

variable {n : NonTerminal} {k : Kind} {β : List Symbol}

theorem All.tree {f : Forest g [.nonTerminal n]} (all : f.All P) : P n f := by
  cases f with
  | node p member head children more =>
    cases more
    exact all.1

theorem All.exists_tree {f : Forest g (.nonTerminal n :: β)} (all : f.All P) :
    ∃ (tree : Forest g [.nonTerminal n]) (more : Forest g β), f = tree.append more ∧ P n tree ∧
      more.All P := by
  cases f with
  | node p member head children more => exact ⟨.node p member head children .nil, more, rfl, all⟩

theorem All.exists_leaf {f : Forest g (.terminal k :: β)} (all : f.All P) :
    ∃ (l : Leaf k) (more : Forest g β), f = token l.token l.kind more ∧ more.All P := by
  cases f with
  | token t kind more => exact ⟨⟨t, kind⟩, more, rfl, all⟩

end Grammar.Forest

/-- Tokens whose literals spell a value. -/
def Readable (tokens : List Token) : Prop :=
  ∀ t ∈ tokens, t.kind = .intConst → ∃ n, Decimal.read? t.lexeme = some n

instance (tokens : List Token) : Decidable (Readable tokens) :=
  decidable_of_iff
    (∀ t ∈ tokens, t.kind = .intConst → (Decimal.read? t.lexeme).isSome = true)
    (by simp only [Readable, Option.isSome_iff_exists])

theorem readable_append {u v : List Token} : Readable (u ++ v) ↔ Readable u ∧ Readable v := by
  simp [Readable, or_imp, forall_and]

theorem Readable.of_cons {t : Token} {u : List Token} (h : Readable (t :: u)) : Readable u :=
  fun x hx => h x (List.mem_cons_of_mem t hx)

/-- A tree of the grammar that is one of an expression, a statement or what else there is for its
non-terminal. -/
def Typed : (n : NonTerminal) → Forest reference [.nonTerminal n] → Prop
  | .start, _ => True
  | .program, f => ∃ l : StatementList, l.program = f
  | .statementList, f => ∃ l : StatementList, l.forest = f
  | .statement, f => ∃ s : Statement, s.forest = f
  | .declarator, f => ∃ type : Leaf .intWord, type.declarator = f
  | .expr, f => ∃ e : Expression .expr, e.forest = f
  | .term, f => ∃ e : Expression .term, e.forest = f
  | .factor, f => ∃ e : Expression .factor, e.forest = f

theorem all_typed {α : List Symbol} {f : Forest reference α}
    (all : f.All fun n f => Readable f.yield → Typed n f) (readable : Readable f.yield) :
    f.All Typed := by
  induction f with
  | nil => trivial
  | token t kind more ih => exact ih all readable.of_cons
  | node p member head children more _ ih =>
    obtain ⟨front, back⟩ := readable_append.mp readable
    exact ⟨all.1 (by simpa [Forest.yield] using front), ih all.2 back⟩

theorem typed_node (p : Production) (member : p ∈ reference.productions)
    (children : Forest reference p.body) (typed : children.All Typed)
    (readable : Readable children.yield) :
    Typed p.head (.node p member rfl children .nil) := by
  have known := member
  simp only [reference, ofRules, List.mapIdx_cons, List.mapIdx_nil, List.mem_cons,
    List.not_mem_nil, or_false] at known
  rcases known with rfl | rfl | rfl | rfl | rfl | rfl | rfl | rfl | rfl | rfl | rfl | rfl | rfl |
    rfl | rfl | rfl
  · trivial
  · obtain ⟨l, rfl⟩ := typed.tree
    exact ⟨l, rfl⟩
  · obtain ⟨_, _, rfl, ⟨s, rfl⟩, more⟩ := typed.exists_tree
    obtain ⟨semicolon, _, rfl, more⟩ := more.exists_leaf
    obtain ⟨rest, rfl⟩ := more.tree
    exact ⟨.more s semicolon rest, rfl⟩
  · obtain ⟨_, _, rfl, ⟨s, rfl⟩, more⟩ := typed.exists_tree
    obtain ⟨semicolon, none, rfl, -⟩ := more.exists_leaf
    cases none
    exact ⟨.last s semicolon, rfl⟩
  · obtain ⟨_, _, rfl, ⟨type, rfl⟩, more⟩ := typed.exists_tree
    obtain ⟨name, none, rfl, -⟩ := more.exists_leaf
    cases none
    exact ⟨.declaration type name, rfl⟩
  · obtain ⟨type, none, rfl, -⟩ := typed.exists_leaf
    cases none
    exact ⟨type, rfl⟩
  · obtain ⟨name, _, rfl, more⟩ := typed.exists_leaf
    obtain ⟨equals, _, rfl, more⟩ := more.exists_leaf
    obtain ⟨value, rfl⟩ := more.tree
    exact ⟨.assignment name equals value, rfl⟩
  · obtain ⟨word, _, rfl, more⟩ := typed.exists_leaf
    obtain ⟨value, rfl⟩ := more.tree
    exact ⟨.returning word value, rfl⟩
  · obtain ⟨_, _, rfl, ⟨lhs, rfl⟩, more⟩ := typed.exists_tree
    obtain ⟨sign, _, rfl, more⟩ := more.exists_leaf
    obtain ⟨rhs, rfl⟩ := more.tree
    exact ⟨.arithmetic .add lhs sign rhs, rfl⟩
  · obtain ⟨_, _, rfl, ⟨lhs, rfl⟩, more⟩ := typed.exists_tree
    obtain ⟨sign, _, rfl, more⟩ := more.exists_leaf
    obtain ⟨rhs, rfl⟩ := more.tree
    exact ⟨.arithmetic .sub lhs sign rhs, rfl⟩
  · obtain ⟨inner, rfl⟩ := typed.tree
    exact ⟨.ofTerm inner, rfl⟩
  · obtain ⟨_, _, rfl, ⟨lhs, rfl⟩, more⟩ := typed.exists_tree
    obtain ⟨sign, _, rfl, more⟩ := more.exists_leaf
    obtain ⟨rhs, rfl⟩ := more.tree
    exact ⟨.arithmetic .mul lhs sign rhs, rfl⟩
  · obtain ⟨inner, rfl⟩ := typed.tree
    exact ⟨.ofFactor inner, rfl⟩
  · obtain ⟨left, _, rfl, more⟩ := typed.exists_leaf
    obtain ⟨_, _, rfl, ⟨inner, rfl⟩, last⟩ := more.exists_tree
    obtain ⟨right, none, rfl, -⟩ := last.exists_leaf
    cases none
    exact ⟨.parenthesized left inner right, rfl⟩
  · obtain ⟨v, none, rfl, -⟩ := typed.exists_leaf
    cases none
    exact ⟨.name v, rfl⟩
  · obtain ⟨n, none, rfl, -⟩ := typed.exists_leaf
    cases none
    obtain ⟨value, reads⟩ := readable n.token (by simp [Forest.yield]) n.kind
    exact ⟨.literal ⟨n.token, n.kind, value, reads⟩, rfl⟩

/-- A tree of the grammar whose literals can be read is the tree of some statements. -/
theorem exists_program (f : Forest reference [.nonTerminal .program])
    (readable : Readable f.yield) : ∃ l : StatementList, l.program = f := by
  have all : f.All fun n f => Readable f.yield → Typed n f := by
    refine Forest.all_of_node ?_ f
    intro p member children all readable
    have inside : Readable children.yield := by simpa [Forest.yield] using readable
    exact typed_node p member children (all_typed all inside) inside
  exact all.tree readable

end Straightline
