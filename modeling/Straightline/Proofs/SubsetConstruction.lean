import Straightline.Proofs.FixedPoints
import Straightline.Proofs.SlrTables

/-!
# The subset construction

Items and their moves are a nondeterministic automaton, whose moves without reading lead from a dot
before a non-terminal to the front of its productions. A closure is what these moves lead to, in any
order in which they are made (`endsWith_closure`). The transitions between the explored sets are the
deterministic automaton: they follow a string as long as it reaches some item, and lead to the
set of the items that it reaches (`states_exact`).
-/
namespace Straightline.Grammar

open Saturation

variable {g : Grammar} {kernel : ItemSet} {root : Production} {X : Symbol} {γ : List Symbol}
  {q q' : Nat}

/-! ### Closures -/

/-- An item with its dot in front, of a non-terminal behind the dot of a known item. -/
def Expands (g : Grammar) (known : ItemSet) (i : Item) : Prop :=
  i.dot = 0 ∧ i.production ∈ g.productions ∧
    ∃ j ∈ known, j.next? = some (.nonTerminal i.production.head)

theorem Expands.mem_items {known : ItemSet} {i : Item} (h : g.Expands known i) : i ∈ g.items := by
  apply Grammar.mem_items.mpr
  rw [h.1]
  exact ⟨h.2.1, Nat.zero_le _⟩

theorem Expands.mem_closure {i : Item} (h : g.Expands (g.closure kernel) i) :
    i ∈ g.closure kernel := by
  rcases h with ⟨front, member, j, hj, next⟩
  have item : i = ⟨i.production, 0⟩ := by rw [← front]
  rw [item]
  exact mem_closure_of_next hj next member

theorem closure_subset {known : ItemSet} (inside : kernel ⊆ known)
    (closed : ∀ i, g.Expands known i → i ∈ known) : g.closure kernel ⊆ known := by
  intro i hi
  rcases Grammar.mem_closure.mp hi with ⟨item, ⟨front, head⟩ | here⟩
  · apply closed
    refine ⟨front, (Grammar.mem_items.mp item).1, ?_⟩
    refine of_mem_expected (fun n => ∃ j ∈ known, j.next? = some (.nonTerminal n)) ?_ ?_ head
    · intro j hj n next
      exact ⟨j, inside hj, next⟩
    · rintro p hp n ⟨j, hj, next⟩ first
      refine ⟨⟨p, 0⟩, closed ⟨p, 0⟩ ⟨rfl, hp, j, hj, next⟩, ?_⟩
      simpa [Item.next?, List.head?_eq_getElem?] using first
  · exact inside here

/-- Adding the items that known ones lead to, one after another, ends with the closure. -/
theorem endsWith_closure (inside : ∀ i ∈ kernel, i ∈ g.items) :
    EndsWith g.Expands kernel (g.closure kernel) := by
  apply endsWith_of_least (fun known i => Expands.mem_items)
  · rintro known known' more i ⟨front, member, j, hj, next⟩
    exact ⟨front, member, j, more hj, next⟩
  · intro i hi
    exact Grammar.mem_closure.mpr ⟨inside i hi, Or.inr hi⟩
  · intro i expands
    exact expands.mem_closure
  · intro known sub closed
    exact closure_subset sub closed

/-! ### Transitions -/

def transition? (g : Grammar) (q : Nat) (X : Symbol) : Option Nat :=
  g.states[q]?.bind fun s => g.target? g.states s X

/-- The state that a string leads to from the initial one. -/
def walk (g : Grammar) (γ : List Symbol) : Option Nat :=
  γ.foldlM g.transition? 0

theorem walk_concat (g : Grammar) (γ : List Symbol) (X : Symbol) :
    g.walk (γ ++ [X]) = (g.walk γ).bind (g.transition? · X) := by
  simp [walk, List.foldlM_append]

theorem transition?_iff (here : g.states[q]? = some (g.after γ)) :
    g.transition? q X = some q' ↔ g.states[q']? = some (g.after (γ ++ [X])) := by
  rw [transition?, here, Option.bind_some, target?_iff, after_concat]

theorem after_mem_states_of_concat (first : g.start? = some root)
    (h : g.after (γ ++ [X]) ∈ g.states) : g.after γ ∈ g.states := by
  rcases exists_after_of_mem_states first h with ⟨⟨i, hi⟩, -⟩
  rcases (mem_after_iff.mp hi).exists_next with ⟨j, earlier, -⟩
  exact after_mem_states earlier

/-- Transitions lead over a string to the set of the items after it. -/
theorem walk_eq_some_iff (first : g.start? = some root) :
    g.walk γ = some q ↔ g.states[q]? = some (g.after γ) := by
  induction γ using List.reverseRecOn generalizing q with
  | nil =>
    have zero : g.states[0]? = some (g.after []) := g.states_zero
    constructor
    · intro h
      cases h
      exact zero
    · intro h
      have inside := (List.getElem?_eq_some_iff.mp zero).1
      have same := (List.getElem?_inj inside explore_states.1.distinct).mp (zero.trans h.symm)
      rw [← same]
      rfl
  | append_singleton γ X ih =>
    rw [walk_concat, Option.bind_eq_some_iff]
    constructor
    · rintro ⟨q', before, moves⟩
      exact (transition?_iff (ih.mp before)).mp moves
    · intro h
      have earlier := after_mem_states_of_concat first (List.mem_of_getElem? h)
      rcases List.mem_iff_getElem?.mp earlier with ⟨q', here⟩
      exact ⟨q', ih.mpr here, (transition?_iff here).mpr h⟩

theorem exists_walk_iff (first : g.start? = some root) :
    (∃ q, g.walk γ = some q) ↔ ∃ i, g.Reaches γ i := by
  constructor
  · rintro ⟨q, walked⟩
    have here := (walk_eq_some_iff first).mp walked
    rcases exists_after_of_mem_states first (List.mem_of_getElem? here) with ⟨⟨i, hi⟩, -⟩
    exact ⟨i, mem_after_iff.mp hi⟩
  · rintro ⟨i, reached⟩
    rcases List.mem_iff_getElem?.mp (after_mem_states reached) with ⟨q, here⟩
    exact ⟨q, (walk_eq_some_iff first).mpr here⟩

theorem exists_walk_of_state (first : g.start? = some root) (h : q < g.states.length) :
    ∃ γ, g.walk γ = some q := by
  have here := List.getElem?_eq_getElem h
  rcases exists_after_of_mem_states first (List.mem_of_getElem? here) with ⟨-, γ, same⟩
  exact ⟨γ, (walk_eq_some_iff first).mpr (here.trans (congrArg some same))⟩

/-- The states of a grammar that has a start rule, whatever its rules are. Closures and exploration
come to an end. The states are different sets of items, each of them closed; the first is the closure
of the start rule with its dot in front, and transitions lead from it to every other. They lead over
a string if and only if it reaches some item, and then to the set of the items that it reaches. -/
theorem states_exact (head : NonTerminal) (body : List Symbol)
    (rules : List (NonTerminal × List Symbol)) :
    let g := ofRules ((head, body) :: rules)
    (∀ kernel : ItemSet, (∀ i ∈ kernel, i ∈ g.items) →
      EndsWith g.Expands kernel (g.closure kernel)) ∧
    (∀ n, Nat.pow 2 g.items.length < n → g.explore n [g.initial] 0 = g.states) ∧
    (g.states.Pairwise fun s s' => ¬ ∀ i, i ∈ s ↔ i ∈ s') ∧
    (∀ s ∈ g.states, ∀ i ∈ s, ∀ p ∈ g.productions, i.next? = some (.nonTerminal p.head) →
      ⟨p, 0⟩ ∈ s) ∧
    g.states[0]? = some (g.closure [⟨⟨0, head, body⟩, 0⟩]) ∧
    (∀ q < g.states.length, ∃ γ, g.walk γ = some q) ∧
    ∀ γ, ((∃ q, g.walk γ = some q) ↔ ∃ i, g.Reaches γ i) ∧
      ∀ q, g.walk γ = some q → ∃ s, g.states[q]? = some s ∧ ∀ i, i ∈ s ↔ g.Reaches γ i := by
  intro g
  have first : g.start? = some ⟨0, head, body⟩ := getElem?_ofRules _ 0
  refine ⟨fun kernel => endsWith_closure, fun n => explore_eq_states,
    (enumerates_states first).distinct, ?_, ?_, fun q => exists_walk_of_state first, ?_⟩
  · intro s hs i hi p hp next
    rcases exists_after_of_mem_states first hs with ⟨-, γ, rfl⟩
    exact mem_after_of_next hi next hp
  · rw [states_zero, initial, first]
    rfl
  · intro γ
    refine ⟨exists_walk_iff first, ?_⟩
    intro q walked
    exact ⟨g.after γ, (walk_eq_some_iff first).mp walked, fun i => mem_after_iff⟩

end Straightline.Grammar
