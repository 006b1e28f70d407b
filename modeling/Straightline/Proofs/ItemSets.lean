import Mathlib.Data.List.Sublists
import Straightline.Automaton
import Straightline.Proofs.Lookahead

/-!
# Item sets

`Grammar.after` is the set of items after a string of symbols: the automaton's initial set, with
the dot moved over the symbols one by one. An item of it has the symbols before its dot at the end
of the string (`exists_before`), and belongs to a derivation of the start symbol that starts with
the string (`derives_of_mem_after`).

The exploration of the automaton ends with a list of sets that is closed under moving the dot
(`advance_mem_states`): each set is a selection of the grammar's items, and there are no more of
these than the exploration has steps.
-/
namespace Straightline.Grammar

open Saturation

variable {g : Grammar} {kernel s : ItemSet} {i j : Item} {p : Production} {n : NonTerminal}
  {X : Symbol} {γ δ : List Symbol} {d : Nat}

theorem mem_items :
    i ∈ g.items ↔ i.production ∈ g.productions ∧ i.dot ≤ i.production.body.length := by
  obtain ⟨p, d⟩ := i
  rw [items, List.mem_flatMap]
  constructor
  · rintro ⟨p', hp, made⟩
    obtain ⟨d', hd, same⟩ := List.mem_map.mp made
    cases same
    exact ⟨hp, Nat.lt_succ_iff.mp (List.mem_range.mp hd)⟩
  · rintro ⟨hp, hd⟩
    exact ⟨p, hp, List.mem_map.mpr ⟨d, List.mem_range.mpr (Nat.lt_succ_iff.mpr hd), rfl⟩⟩

theorem mem_closure :
    i ∈ g.closure kernel ↔
      i ∈ g.items ∧ (i.dot = 0 ∧ i.production.head ∈ g.expected kernel ∨ i ∈ kernel) := by
  simp [closure]

theorem lt_length_of_next? (h : i.next? = some X) : i.dot < i.production.body.length :=
  (List.getElem?_eq_some_iff.mp h).1

theorem drop_of_next? (h : i.next? = some X) :
    i.production.body.drop i.dot = X :: i.production.body.drop (i.dot + 1) := by
  obtain ⟨inside, here⟩ := List.getElem?_eq_some_iff.mp h
  rw [List.drop_eq_getElem_cons inside, here]

theorem next_mem_expected (member : i ∈ g.closure kernel)
    (next : i.next? = some (.nonTerminal n)) : n ∈ g.expected kernel := by
  obtain ⟨inside, ⟨front, head⟩ | inKernel⟩ := mem_closure.mp member
  · apply mem_saturate_of_rule (NonTerminal.mem_all _)
    rw [Bool.or_eq_true]
    refine Or.inr (List.any_eq_true.mpr ⟨_, (mem_items.mp inside).1, ?_⟩)
    rw [Bool.and_eq_true, List.contains_iff_mem]
    refine ⟨head, ?_⟩
    simpa [Item.next?, front, List.head?_eq_getElem?] using next
  · apply mem_saturate_of_rule (NonTerminal.mem_all _)
    rw [Bool.or_eq_true]
    exact Or.inl (List.any_eq_true.mpr ⟨i, inKernel, by simp [next]⟩)

theorem mem_closure_of_next (member : i ∈ g.closure kernel)
    (next : i.next? = some (.nonTerminal p.head)) (inGrammar : p ∈ g.productions) :
    ⟨p, 0⟩ ∈ g.closure kernel :=
  mem_closure.mpr ⟨mem_items.mpr ⟨inGrammar, Nat.zero_le _⟩,
    Or.inl ⟨rfl, next_mem_expected member next⟩⟩

/-- What holds of the non-terminals behind the dots of a set, and passes from a head to the first
symbol of a body, holds of all that is expected. -/
theorem of_mem_expected (holds : NonTerminal → Prop)
    (behind : ∀ i ∈ kernel, ∀ n, i.next? = some (.nonTerminal n) → holds n)
    (first : ∀ p ∈ g.productions, ∀ n, holds p.head → p.body.head? = some (.nonTerminal n) →
      holds n)
    (h : n ∈ g.expected kernel) : holds n := by
  refine of_mem_saturate holds ?_ h
  intro known m all rule
  rw [Bool.or_eq_true] at rule
  rcases rule with rule | rule
  · obtain ⟨i, hi, next⟩ := List.any_eq_true.mp rule
    exact behind i hi m (by simpa using next)
  · obtain ⟨p, hp, both⟩ := List.any_eq_true.mp rule
    rw [Bool.and_eq_true, List.contains_iff_mem] at both
    exact first p hp m (all _ both.1) (by simpa using both.2)

theorem exists_next_of_mem_expected (inside : ∀ i ∈ kernel, i ∈ g.items)
    (h : n ∈ g.expected kernel) : ∃ i ∈ g.closure kernel, i.next? = some (.nonTerminal n) := by
  refine of_mem_expected (fun n => ∃ i ∈ g.closure kernel, i.next? = some (.nonTerminal n))
    ?_ ?_ h
  · intro i hi n next
    exact ⟨i, mem_closure.mpr ⟨inside i hi, Or.inr hi⟩, next⟩
  · rintro p hp n ⟨i, hi, next⟩ head
    refine ⟨⟨p, 0⟩, mem_closure_of_next hi next hp, ?_⟩
    simpa [Item.next?, List.head?_eq_getElem?] using head

theorem exists_next_of_mem_closure (inside : ∀ i ∈ kernel, i ∈ g.items)
    (member : i ∈ g.closure kernel) (new : i ∉ kernel) :
    ∃ j ∈ g.closure kernel, j.next? = some (.nonTerminal i.production.head) := by
  obtain ⟨-, ⟨-, head⟩ | inKernel⟩ := mem_closure.mp member
  · exact exists_next_of_mem_expected inside head
  · exact absurd inKernel new

/-! ### The set after a string -/

def after (g : Grammar) (γ : List Symbol) : ItemSet :=
  γ.foldl g.advance g.initial

@[simp] theorem after_nil : g.after [] = g.initial := rfl

@[simp] theorem after_concat (γ : List Symbol) (X : Symbol) :
    g.after (γ ++ [X]) = g.advance (g.after γ) X := by
  simp [after]

def moved (s : ItemSet) (X : Symbol) : ItemSet :=
  (s.filter fun i => i.next? == some X).map Item.advance

theorem advance_eq (s : ItemSet) (X : Symbol) : g.advance s X = g.closure (moved s X) := rfl

theorem mem_moved : j ∈ moved s X ↔ ∃ i ∈ s, i.next? = some X ∧ i.advance = j := by
  simp [moved, and_assoc]

theorem moved_inside (inside : ∀ i ∈ s, i ∈ g.items) : ∀ j ∈ moved s X, j ∈ g.items := by
  intro j hj
  obtain ⟨i, hi, next, rfl⟩ := mem_moved.mp hj
  exact mem_items.mpr ⟨(mem_items.mp (inside i hi)).1, lt_length_of_next? next⟩

theorem start_inside : ∀ j ∈ g.start?.toList.map (⟨·, 0⟩ : Production → Item), j ∈ g.items := by
  intro j hj
  obtain ⟨p, hp, rfl⟩ := List.mem_map.mp hj
  have : g.start? = some p := by simpa using hp
  exact mem_items.mpr ⟨List.mem_of_getElem? this, Nat.zero_le _⟩

theorem start_mem_initial (hs : g.start? = some p) : ⟨p, 0⟩ ∈ g.initial :=
  mem_closure.mpr ⟨mem_items.mpr ⟨List.mem_of_getElem? hs, Nat.zero_le _⟩, Or.inr (by simp [hs])⟩

theorem after_eq_closure (g : Grammar) (γ : List Symbol) :
    ∃ kernel, (∀ i ∈ kernel, i ∈ g.items) ∧ g.after γ = g.closure kernel := by
  induction γ using List.reverseRecOn with
  | nil => exact ⟨_, start_inside, rfl⟩
  | append_singleton γ X ih =>
    obtain ⟨kernel, -, same⟩ := ih
    refine ⟨moved (g.after γ) X, moved_inside ?_, by rw [after_concat, advance_eq]⟩
    intro i hi
    rw [same] at hi
    exact (mem_closure.mp hi).1

theorem mem_items_of_mem_after (h : i ∈ g.after γ) : i ∈ g.items := by
  obtain ⟨kernel, -, same⟩ := g.after_eq_closure γ
  rw [same] at h
  exact (mem_closure.mp h).1

theorem mem_after_of_next (member : i ∈ g.after γ) (next : i.next? = some (.nonTerminal p.head))
    (inGrammar : p ∈ g.productions) : ⟨p, 0⟩ ∈ g.after γ := by
  obtain ⟨kernel, -, same⟩ := g.after_eq_closure γ
  rw [same] at member ⊢
  exact mem_closure_of_next member next inGrammar

theorem advance_mem_after (member : i ∈ g.after γ) (next : i.next? = some X) :
    i.advance ∈ g.after (γ ++ [X]) := by
  have inside := mem_items.mp (mem_items_of_mem_after member)
  rw [after_concat, advance_eq, mem_closure]
  exact ⟨mem_items.mpr ⟨inside.1, lt_length_of_next? next⟩,
    Or.inr (mem_moved.mpr ⟨i, member, next, rfl⟩)⟩

theorem mem_after_concat_succ (member : ⟨p, d + 1⟩ ∈ g.after (γ ++ [X])) :
    ⟨p, d⟩ ∈ g.after γ ∧ p.body[d]? = some X := by
  rw [after_concat, advance_eq, mem_closure] at member
  obtain ⟨-, ⟨front, -⟩ | inKernel⟩ := member
  · cases front
  · obtain ⟨i, hi, next, same⟩ := mem_moved.mp inKernel
    obtain ⟨rfl, rfl⟩ : i.production = p ∧ i.dot = d := by
      simpa [Item.advance] using same
    exact ⟨hi, next⟩

theorem exists_before (member : ⟨p, d⟩ ∈ g.after γ) :
    ∃ δ, γ = δ ++ p.body.take d ∧ ⟨p, 0⟩ ∈ g.after δ := by
  induction d generalizing γ with
  | zero => exact ⟨γ, by simp, member⟩
  | succ d ih =>
    induction γ using List.reverseRecOn with
    | nil =>
      obtain ⟨-, ⟨front, -⟩ | inKernel⟩ := mem_closure.mp member
      · cases front
      · simp at inKernel
    | append_singleton γ X =>
      obtain ⟨earlier, next⟩ := mem_after_concat_succ member
      obtain ⟨δ, rfl, start⟩ := ih earlier
      exact ⟨δ, by rw [List.take_add_one, next]; simp, start⟩

theorem origin (member : ⟨p, 0⟩ ∈ g.after γ) :
    γ = [] ∧ g.start? = some p ∨ ∃ i ∈ g.after γ, i.next? = some (.nonTerminal p.head) := by
  induction γ using List.reverseRecOn with
  | nil =>
    by_cases start : g.start? = some p
    · exact Or.inl ⟨rfl, start⟩
    · exact Or.inr (exists_next_of_mem_closure start_inside member (by simpa using start))
  | append_singleton γ X =>
    have inside : ∀ j ∈ moved (g.after γ) X, j ∈ g.items :=
      moved_inside fun i hi => mem_items_of_mem_after hi
    have new : ⟨p, 0⟩ ∉ moved (g.after γ) X := by
      intro inKernel
      obtain ⟨i, -, -, same⟩ := mem_moved.mp inKernel
      simp [Item.advance] at same
    rw [after_concat, advance_eq] at member ⊢
    exact Or.inr (exists_next_of_mem_closure inside member new)

/-! ### Viable prefixes -/

/-- A non-terminal that the start symbol derives right behind a string. -/
def Viable (g : Grammar) (root : NonTerminal) (γ : List Symbol) (n : NonTerminal) : Prop :=
  ∃ η, g.Derives [.nonTerminal root] (γ ++ .nonTerminal n :: η)

/-- An item whose head is derived behind the string less the symbols before the dot. -/
def ValidItem (g : Grammar) (root : NonTerminal) (γ : List Symbol) (i : Item) : Prop :=
  i.production ∈ g.productions ∧
    ∃ δ, γ = δ ++ i.production.body.take i.dot ∧ g.Viable root δ i.production.head

variable {root : NonTerminal}

/-- The string before the dot of a valid item, with the rest of its body, starts a sentential
form. -/
theorem ValidItem.derives (h : g.ValidItem root γ i) :
    ∃ η, g.Derives [.nonTerminal root] (γ ++ i.production.body.drop i.dot ++ η) := by
  obtain ⟨member, δ, rfl, η, derived⟩ := h
  refine ⟨η, ?_⟩
  simpa using derived.trans (.apply member δ η)

theorem ValidItem.viable (h : g.ValidItem root γ i) (next : i.next? = some (.nonTerminal n)) :
    g.Viable root γ n := by
  obtain ⟨η, derived⟩ := h.derives
  rw [drop_of_next? next] at derived
  exact ⟨_, by simpa using derived⟩

theorem ValidItem.closure (valid : ∀ i ∈ kernel, g.ValidItem root γ i)
    (member : i ∈ g.closure kernel) : g.ValidItem root γ i := by
  obtain ⟨inside, ⟨front, head⟩ | inKernel⟩ := mem_closure.mp member
  · refine ⟨(mem_items.mp inside).1, γ, by simp [front], ?_⟩
    refine of_mem_expected (g.Viable root γ) ?_ ?_ head
    · intro i hi n next
      exact (valid i hi).viable next
    · rintro p hp n viable first
      have front : g.ValidItem root γ ⟨p, 0⟩ := ⟨hp, γ, by simp, viable⟩
      exact front.viable (by simpa [Item.next?, List.head?_eq_getElem?] using first)
  · exact valid i inKernel

theorem ValidItem.advance (h : g.ValidItem root γ i) (next : i.next? = some X) :
    g.ValidItem root (γ ++ [X]) i.advance := by
  obtain ⟨member, δ, rfl, viable⟩ := h
  refine ⟨member, δ, ?_, viable⟩
  simp [Item.advance, List.take_add_one, show i.production.body[i.dot]? = _ from next]

theorem validItem_of_mem_after (hs : g.start? = some p) (member : i ∈ g.after γ) :
    g.ValidItem p.head γ i := by
  induction γ using List.reverseRecOn generalizing i with
  | nil =>
    refine ValidItem.closure ?_ member
    intro j hj
    have : j = ⟨p, 0⟩ := by simpa [hs] using hj
    subst this
    exact ⟨List.mem_of_getElem? hs, [], rfl, [], .refl _⟩
  | append_singleton γ X ih =>
    rw [after_concat, advance_eq] at member
    refine ValidItem.closure ?_ member
    intro j hj
    obtain ⟨i, hi, next, rfl⟩ := mem_moved.mp hj
    exact (ih hi).advance next

theorem derives_of_mem_after (hs : g.start? = some p) (member : i ∈ g.after γ) :
    ∃ η, g.Derives [.nonTerminal p.head] (γ ++ η) := by
  obtain ⟨η, derived⟩ := (validItem_of_mem_after hs member).derives
  exact ⟨_, by simpa using derived⟩

/-! ### Exploration -/

/-- Different sets of items, each selected from the grammar's. -/
structure Discovered (g : Grammar) (known : List ItemSet) : Prop where
  distinct : known.Nodup
  selected : ∀ s ∈ known, s.Sublist g.items

theorem Discovered.length_le {known : List ItemSet} (h : g.Discovered known) :
    known.length ≤ Nat.pow 2 g.items.length := by
  have inside : known ⊆ g.items.sublists := fun s hs => List.mem_sublists.mpr (h.selected s hs)
  rw [Nat.pow_eq, ← List.length_sublists]
  exact (h.distinct.subperm inside).length_le

theorem sublist_advance (s : ItemSet) (X : Symbol) : (g.advance s X).Sublist g.items :=
  List.filter_sublist

theorem discovered_discover {known : List ItemSet} (h : g.Discovered known)
    (selected : s.Sublist g.items) : g.Discovered (discover known s) := by
  unfold discover
  split
  · exact h
  · rename_i new
    refine ⟨List.nodup_append.mpr ⟨h.distinct, by simp, ?_⟩, ?_⟩
    · intro a ha b hb
      rintro rfl
      simp_all
    · intro u hu
      rcases List.mem_append.mp hu with hu | hu
      · exact h.selected u hu
      · exact List.mem_singleton.mp hu ▸ selected

/-- Discovering a list of sets keeps what is known in front and makes all of the list known. -/
theorem foldl_discover {known found : List ItemSet} (h : g.Discovered known)
    (selected : ∀ s ∈ found, s.Sublist g.items) :
    g.Discovered (found.foldl discover known) ∧ known <+: found.foldl discover known ∧
      ∀ s ∈ found, s ∈ found.foldl discover known := by
  induction found generalizing known with
  | nil => exact ⟨h, List.prefix_rfl, by simp⟩
  | cons s found ih =>
    have step : known <+: discover known s := by
      unfold discover
      split
      · exact List.prefix_rfl
      · exact List.prefix_append ..
    have here : s ∈ discover known s := by
      unfold discover
      split <;> simp_all
    obtain ⟨sound, front, all⟩ := ih (discovered_discover h (selected s (by simp)))
      (fun u hu => selected u (by simp [hu]))
    refine ⟨sound, step.trans front, ?_⟩
    intro u hu
    rcases List.mem_cons.mp hu with rfl | hu
    · exact front.subset here
    · exact all u hu

theorem mem_nextSymbols : X ∈ nextSymbols s ↔ ∃ i ∈ s, i.next? = some X := by
  simp [nextSymbols, Symbol.mem_all]

/-- A position up to which all successors of the known sets are known. -/
def Explored (g : Grammar) (known : List ItemSet) (position : Nat) : Prop :=
  ∀ m < position, ∀ s, known[m]? = some s → ∀ X ∈ nextSymbols s, g.advance s X ∈ known

theorem Explored.step {known next : List ItemSet} {position : Nat} (h : g.Explored known position)
    (here : known[position]? = some s) (front : known <+: next)
    (all : ∀ X ∈ nextSymbols s, g.advance s X ∈ next) : g.Explored next (position + 1) := by
  have inside := (List.getElem?_eq_some_iff.mp here).1
  obtain ⟨rest, rfl⟩ := front
  intro m hm u hu X hX
  rw [List.getElem?_append_left (by omega)] at hu
  rcases Nat.lt_succ_iff_lt_or_eq.mp hm with hm | rfl
  · exact List.mem_append_left rest (h m hm u hu X hX)
  · rw [here] at hu
    cases hu
    exact all X hX

/-- With steps for all selections of items, exploration ends with all successors known. -/
theorem explore_closed {n : Nat} {known : List ItemSet} {position : Nat} (h : g.Discovered known)
    (explored : g.Explored known position) (inside : position ≤ known.length)
    (enough : Nat.pow 2 g.items.length < n + position) :
    g.Discovered (g.explore n known position) ∧ known <+: g.explore n known position ∧
      ∀ s ∈ g.explore n known position, ∀ X ∈ nextSymbols s,
        g.advance s X ∈ g.explore n known position := by
  induction n generalizing known position with
  | zero =>
    have := h.length_le
    omega
  | succ n ih =>
    rw [explore]
    split
    · rename_i last
      have : known.length ≤ position := List.getElem?_eq_none_iff.mp last
      refine ⟨h, List.prefix_rfl, ?_⟩
      intro s hs
      obtain ⟨m, hm, here⟩ := List.mem_iff_getElem.mp hs
      exact explored m (by omega) s (by rw [List.getElem?_eq_getElem hm, here])
    · rename_i s here
      have selected : ∀ u ∈ (nextSymbols s).map (g.advance s), u.Sublist g.items := by
        intro u hu
        obtain ⟨X, -, rfl⟩ := List.mem_map.mp hu
        exact sublist_advance s X
      obtain ⟨sound, front, all⟩ := foldl_discover h selected
      have longer := (List.getElem?_eq_some_iff.mp here).1
      have := front.length_le
      obtain ⟨discovered, further, closed⟩ := ih sound
        (explored.step here front fun X hX => all _ (List.mem_map_of_mem hX)) (by omega) (by omega)
      exact ⟨discovered, front.trans further, closed⟩

theorem explore_states : g.Discovered g.states ∧ [g.initial] <+: g.states ∧
    ∀ s ∈ g.states, ∀ X ∈ nextSymbols s, g.advance s X ∈ g.states := by
  refine explore_closed ⟨by simp, ?_⟩ ?_ (Nat.zero_le _) (by omega)
  · intro s hs
    exact List.mem_singleton.mp hs ▸ List.filter_sublist
  · intro m hm
    omega

theorem states_zero (g : Grammar) : g.states[0]? = some g.initial := by
  obtain ⟨rest, same⟩ := (explore_states (g := g)).2.1
  rw [← same]
  rfl

theorem mem_items_of_mem_states (hs : s ∈ g.states) (member : i ∈ s) : i ∈ g.items :=
  (explore_states.1.selected s hs).subset member

theorem advance_mem_states (hs : s ∈ g.states) (member : i ∈ s) (next : i.next? = some X) :
    g.advance s X ∈ g.states :=
  explore_states.2.2 s hs X (mem_nextSymbols.mpr ⟨i, member, next⟩)

end Straightline.Grammar
