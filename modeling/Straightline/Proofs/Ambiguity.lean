import Straightline.Proofs.BuiltTables
import Straightline.Proofs.SlrTables

/-!
# Ambiguous grammars have no table

A rightmost derivation of tokens is the reductions of a parse tree, read backwards
(`Rightmost.exists_forest`). Over a built table the moves of a tree are made on its leaves, and runs
are deterministic, so that two trees with the same leaves have the same reductions. A grammar with
two rightmost derivations of a string is thus refused, however far into the string these agree.
-/
namespace Straightline

namespace Grammar

variable {g : Grammar} {α : List Symbol} {ns : List Nat} {tokens : List Token}

/-- The numbers of the productions of a forest, from the last reduction to the first. -/
def Forest.productions (f : Forest g α) : List Nat :=
  (f.moves.filterMap Move.production?).reverse

namespace Forest

theorem productions_append {β : List Symbol} (f : Forest g α) (f' : Forest g β) :
    (f.append f').productions = f'.productions ++ f.productions := by
  simp [productions, moves_append]

theorem productions_node {n : NonTerminal} {β : List Symbol} {p : Production}
    (member : p ∈ g.productions) (head : p.head = n) (children : Forest g p.body)
    (more : Forest g β) :
    (node p member head children more).productions =
      more.productions ++ p.index :: children.productions := by
  simp [productions, moves]

theorem productions_eq_nil (f : Forest g α) (terminals : ∀ X ∈ α, ∃ k, X = .terminal k) :
    f.productions = [] := by
  induction f with
  | nil => rfl
  | token t kind more ih =>
    have rest := ih fun X hX => terminals X (List.mem_cons_of_mem _ hX)
    simpa [productions, moves] using rest
  | node p member head children more =>
    obtain ⟨k, same⟩ := terminals _ List.mem_cons_self
    cases same

/-- Over a control that realizes the automaton, trees with the same leaves have the same
productions: both are built by the one run over the leaves. -/
theorem productions_eq_of_yield {t : Control} {root : Production} {X : Symbol}
    (rooted : g.Rooted root X) (realizes : t.Realizes g) {f f' : Forest g [X]}
    (same : f.yield = f'.yield) : f.productions = f'.productions := by
  let e : Token := ⟨.endOfInput, "", 0, 0⟩
  have ends : e.kind = .endOfInput := rfl
  obtain ⟨ms, c, q, steps, accepts, made⟩ := accepted_of_forest rooted realizes f ends []
  obtain ⟨ns, c', q', steps', accepts', made'⟩ := accepted_of_forest rooted realizes f' ends []
  rw [← same] at steps'
  obtain ⟨rfl, -⟩ := steps.unique_of_halt steps' (by simp [accepts]) (by simp [accepts'])
  rw [productions, productions, made, made']

end Forest

/-- A rightmost derivation of tokens is that of a forest: its productions are those that the forest
is reduced by, from the last to the first. -/
theorem Rightmost.exists_forest (numbered : g.Numbered)
    (h : g.Rightmost ns α (tokens.map Token.symbol)) :
    ∃ f : Forest g α, f.yield = tokens ∧ f.productions = ns := by
  generalize same : tokens.map Token.symbol = γ at h
  induction h with
  | refl α =>
    subst same
    refine ⟨.leaves tokens, by simp, Forest.productions_eq_nil _ ?_⟩
    intro X hX
    obtain ⟨t, -, rfl⟩ := List.mem_map.mp hX
    exact ⟨t.kind, rfl⟩
  | @apply n p ns left γ right here further ih =>
    obtain ⟨f, leaves, numbers⟩ := ih same
    obtain ⟨front, behind, rfl⟩ := f.exists_append
    obtain ⟨before, children, rfl⟩ := front.exists_append
    have ended : behind.productions = [] := by
      apply Forest.productions_eq_nil
      intro X hX
      obtain ⟨k, -, rfl⟩ := List.mem_map.mp hX
      exact ⟨k, rfl⟩
    rw [Forest.productions_append, Forest.productions_append, ended] at numbers
    refine ⟨before.append (.node p (List.mem_of_getElem? here) rfl children behind), ?_, ?_⟩
    · simpa [Forest.yield] using leaves
    · rw [Forest.productions_append, Forest.productions_node, ended, numbered n p here]
      simpa using numbers

end Grammar

namespace Table

open Grammar

/-- A grammar whose start rule leads from a head that is in no body to one symbol has no table when
some string of terminals has two rightmost derivations from that symbol: building one ends with a
conflict. -/
theorem build_of_ambiguous {rules : List (NonTerminal × List Symbol)} {root : Production}
    {X : Symbol} (start : (ofRules rules).start? = some root) (body : root.body = [X])
    (fresh : ∀ p ∈ (ofRules rules).productions, .nonTerminal root.head ∉ p.body)
    {word : List Kind} {ms ns : List Nat}
    (derived : (ofRules rules).Rightmost ms [X] (word.map .terminal))
    (derived' : (ofRules rules).Rightmost ns [X] (word.map .terminal)) (different : ms ≠ ns) :
    ∃ q k existing incoming,
      build (ofRules rules) = .error (.grammarConflict q k existing incoming) := by
  have numbered := numbered_ofRules rules
  cases built : build (ofRules rules) with
  | ok t =>
    have rooted : (ofRules rules).Rooted root X := ⟨numbered, start, body, fresh⟩
    let tokens := word.map fun k => (⟨k, "", 0, 0⟩ : Token)
    have symbols : word.map Symbol.terminal = tokens.map Token.symbol := by
      simp [tokens, Token.symbol, Function.comp_def]
    rw [symbols] at derived derived'
    obtain ⟨f, leaves, rfl⟩ := derived.exists_forest numbered
    obtain ⟨f', leaves', rfl⟩ := derived'.exists_forest numbered
    have same := Forest.productions_eq_of_yield rooted (realizes_of_build built numbered)
      (leaves.trans leaves'.symm)
    exact absurd same different
  | error error =>
    obtain ⟨q, ⟨k, existing, incoming, rfl, -⟩, -⟩ :=
      isConflict_of_build start (by simp [body]) built
    exact ⟨q, k, _, _, rfl⟩

/-- Sums without an order of evaluation: `1 + 1 + 1` is the sum of a sum on either side. -/
theorem build_of_ambiguous_sum :
    let g := ofRules
      [(.start, [.nonTerminal .expr]),
        (.expr, [.nonTerminal .expr, .terminal .plus, .nonTerminal .expr]),
        (.expr, [.terminal .intConst])]
    let word : List Kind := [.intConst, .plus, .intConst, .plus, .intConst]
    g.start? = some ⟨0, .start, [.nonTerminal .expr]⟩ ∧
      (∀ p ∈ g.productions, .nonTerminal .start ∉ p.body) ∧
      g.Rightmost [1, 1, 2, 2, 2] [.nonTerminal .expr] (word.map .terminal) ∧
      g.Rightmost [1, 2, 1, 2, 2] [.nonTerminal .expr] (word.map .terminal) ∧
      ∃ q k existing incoming, build g = .error (.grammarConflict q k existing incoming) := by
  intro g word
  have start : g.start? = some ⟨0, .start, [.nonTerminal .expr]⟩ := rfl
  have fresh : ∀ p ∈ g.productions, .nonTerminal .start ∉ p.body := by decide
  let one : Forest g [.nonTerminal .expr] :=
    .node ⟨2, .expr, [.terminal .intConst]⟩ (by decide) rfl
      (.token ⟨.intConst, "1", 0, 0⟩ rfl .nil) .nil
  let sum (a b : Forest g [.nonTerminal .expr]) : Forest g [.nonTerminal .expr] :=
    .node ⟨1, .expr, [.nonTerminal .expr, .terminal .plus, .nonTerminal .expr]⟩ (by decide) rfl
      (a.append (.token ⟨.plus, "+", 0, 0⟩ rfl b)) .nil
  have right : g.Rightmost [1, 1, 2, 2, 2] [.nonTerminal .expr] (word.map .terminal) :=
    (sum one (sum one one)).rightmost (numbered_ofRules _) [] []
  have left : g.Rightmost [1, 2, 1, 2, 2] [.nonTerminal .expr] (word.map .terminal) :=
    (sum (sum one one) one).rightmost (numbered_ofRules _) [] []
  exact ⟨start, fresh, right, left,
    build_of_ambiguous start rfl fresh right left (by decide)⟩

end Table

end Straightline
