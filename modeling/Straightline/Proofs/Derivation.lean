import Mathlib.Logic.Relation
import Straightline.Machine

/-!
# Derivations and parse trees

A derivation rewrites a string of symbols, a production at a time. A forest is the tree form of
one: for each symbol of a string a token or a production with a forest for its body, so that its
leaves are the tokens derived. Every derivation of tokens is the leaves of some forest, and the
other way around (`derives_iff_exists_forest`).
-/
namespace Straightline

def Token.symbol (t : Token) : Symbol :=
  .terminal t.kind

namespace Grammar

variable (g : Grammar)

/-- One production applied somewhere in a string. -/
inductive Produces : List Symbol → List Symbol → Prop where
  | apply {p : Production} (member : p ∈ g.productions) (left right : List Symbol) :
    Produces (left ++ .nonTerminal p.head :: right) (left ++ p.body ++ right)

def Derives : List Symbol → List Symbol → Prop :=
  Relation.ReflTransGen g.Produces

/-- The strings of terminals that a non-terminal derives. -/
def Generates (n : NonTerminal) (kinds : List Kind) : Prop :=
  g.Derives [.nonTerminal n] (kinds.map .terminal)

/-- Parse trees for the symbols of a string. -/
inductive Forest : List Symbol → Type where
  | nil : Forest []
  | token {k : Kind} {rest : List Symbol} (t : Token) (kind : t.kind = k) (more : Forest rest) :
    Forest (.terminal k :: rest)
  | node {n : NonTerminal} {rest : List Symbol} (p : Production) (member : p ∈ g.productions)
    (head : p.head = n) (children : Forest p.body) (more : Forest rest) :
    Forest (.nonTerminal n :: rest)

variable {g} {α β γ δ : List Symbol}

namespace Forest

/-- The tokens at the leaves, from left to right. -/
def yield : {α : List Symbol} → Forest g α → List Token
  | _, nil => []
  | _, token t _ more => t :: more.yield
  | _, node _ _ _ children more => children.yield ++ more.yield

def append : {α : List Symbol} → Forest g α → Forest g β → Forest g (α ++ β)
  | _, nil, other => other
  | _, token t kind more, other => token t kind (more.append other)
  | _, node p member head children more, other => node p member head children (more.append other)

@[simp] theorem yield_append (f : Forest g α) (other : Forest g β) :
    (f.append other).yield = f.yield ++ other.yield := by
  induction f with
  | nil => rfl
  | token t kind more ih => simp [append, yield, ih]
  | node p member head children more _ ih => simp [append, yield, ih]

theorem exists_append (f : Forest g (α ++ β)) :
    ∃ (a : Forest g α) (b : Forest g β), f = a.append b := by
  induction α with
  | nil => exact ⟨nil, f, rfl⟩
  | cons s α ih =>
    cases f with
    | token t kind more =>
      obtain ⟨a, b, rfl⟩ := ih more
      exact ⟨token t kind a, b, rfl⟩
    | node p member head children more =>
      obtain ⟨a, b, rfl⟩ := ih more
      exact ⟨node p member head children a, b, rfl⟩

theorem symbol_of_mem_yield (f : Forest g α) {t : Token} (h : t ∈ f.yield) :
    t.symbol ∈ α ∨ ∃ p ∈ g.productions, t.symbol ∈ p.body := by
  induction f with
  | nil => cases h
  | token t' kind more ih =>
    subst kind
    rcases List.mem_cons.mp h with rfl | h
    · exact Or.inl List.mem_cons_self
    · exact (ih h).imp_left (List.mem_cons_of_mem _)
  | node p member head children more ihc ih =>
    rcases List.mem_append.mp h with h | h
    · rcases ihc h with inside | inside
      · exact Or.inr ⟨p, member, inside⟩
      · exact Or.inr inside
    · exact (ih h).imp_left (List.mem_cons_of_mem _)

def leaves : (tokens : List Token) → Forest g (tokens.map Token.symbol)
  | [] => nil
  | t :: tokens => token t rfl (leaves tokens)

@[simp] theorem yield_leaves (tokens : List Token) :
    (leaves (g := g) tokens).yield = tokens := by
  induction tokens with
  | nil => rfl
  | cons t tokens ih => simp [leaves, yield, ih]

end Forest

namespace Derives

theorem refl (α : List Symbol) : g.Derives α α :=
  Relation.ReflTransGen.refl

theorem trans (h : g.Derives α β) (h' : g.Derives β γ) : g.Derives α γ :=
  Relation.ReflTransGen.trans h h'

theorem apply {p : Production} (member : p ∈ g.productions) (left right : List Symbol) :
    g.Derives (left ++ .nonTerminal p.head :: right) (left ++ p.body ++ right) :=
  Relation.ReflTransGen.single (.apply member left right)

theorem between (left right : List Symbol) (h : g.Derives α β) :
    g.Derives (left ++ α ++ right) (left ++ β ++ right) := by
  induction h with
  | refl => exact .refl _
  | tail _ step ih =>
    cases step with
    | @apply p member a b =>
      refine ih.trans ?_
      have := Derives.apply member (left ++ a) (b ++ right)
      simpa using this

theorem append (h : g.Derives α γ) (h' : g.Derives β δ) : g.Derives (α ++ β) (γ ++ δ) := by
  have first : g.Derives (α ++ β) (γ ++ β) := by simpa using h.between [] β
  have second : g.Derives (γ ++ β) (γ ++ δ) := by simpa using h'.between γ []
  exact first.trans second

end Derives

theorem Forest.derives (f : Forest g α) : g.Derives α (f.yield.map Token.symbol) := by
  induction f with
  | nil => exact .refl _
  | @token k rest t kind more ih =>
    subst kind
    simpa [yield, Token.symbol] using (Derives.refl [Symbol.terminal t.kind]).append ih
  | @node n rest p member head children more ihc ih =>
    subst head
    have opened : g.Derives [.nonTerminal p.head] p.body := by
      simpa using Derives.apply member [] []
    simpa [yield] using (opened.trans ihc).append ih

/-- A production undone in a forest. -/
theorem Produces.exists_forest (step : g.Produces α β) (f : Forest g β) :
    ∃ f' : Forest g α, f'.yield = f.yield := by
  cases step with
  | @apply p member left right =>
    obtain ⟨ab, c, rfl⟩ := f.exists_append
    obtain ⟨a, b, rfl⟩ := ab.exists_append
    exact ⟨a.append (.node p member rfl b c), by simp [Forest.yield]⟩

theorem derives_iff_exists_forest {tokens : List Token} :
    g.Derives α (tokens.map Token.symbol) ↔ ∃ f : Forest g α, f.yield = tokens := by
  constructor
  · intro h
    induction h using Relation.ReflTransGen.head_induction_on with
    | refl => exact ⟨.leaves tokens, by simp⟩
    | head step _ ih =>
      obtain ⟨f, hf⟩ := ih
      obtain ⟨f', hf'⟩ := step.exists_forest f
      exact ⟨f', hf'.trans hf⟩
  · rintro ⟨f, rfl⟩
    exact f.derives

theorem generates_iff_exists_forest {n : NonTerminal} {tokens : List Token} :
    g.Generates n (tokens.map (·.kind)) ↔ ∃ f : Forest g [.nonTerminal n], f.yield = tokens := by
  rw [← derives_iff_exists_forest, Generates, List.map_map]
  rfl

end Grammar

end Straightline
