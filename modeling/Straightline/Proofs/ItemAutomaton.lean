import Straightline.Proofs.ItemSets

/-!
# The automaton of items

Items are the states of a nondeterministic automaton: reading a symbol moves the dot over it, and
without reading, the dot before a non-terminal leads to the front of any production of it. The item
sets that exploration lists are the sets of items that strings reach, each of them once
(`enumerates_states`), whether the exploration is given the steps that it takes or more
(`explore_eq_states`).
-/
namespace Straightline.Grammar

variable {g : Grammar} {kernel s s' : ItemSet} {i j : Item} {p root : Production} {X : Symbol}
  {γ δ : List Symbol} {q q' : Nat}

/-- The items that are reached from the front of the start rule by reading a string. -/
inductive Reaches (g : Grammar) : List Symbol → Item → Prop where
  | start {p : Production} (first : g.start? = some p) : Reaches g [] ⟨p, 0⟩
  | expand {γ : List Symbol} {i : Item} {p : Production} (earlier : Reaches g γ i)
    (next : i.next? = some (.nonTerminal p.head)) (member : p ∈ g.productions) :
    Reaches g γ ⟨p, 0⟩
  | advance {γ : List Symbol} {i : Item} {X : Symbol} (earlier : Reaches g γ i)
    (next : i.next? = some X) : Reaches g (γ ++ [X]) i.advance

namespace Reaches

theorem mem_after (h : g.Reaches γ i) : i ∈ g.after γ := by
  induction h with
  | start first => exact start_mem_initial first
  | expand _ next member ih => exact mem_after_of_next ih next member
  | advance _ next ih => exact advance_mem_after ih next

theorem closure (reached : ∀ i ∈ kernel, g.Reaches γ i) (member : i ∈ g.closure kernel) :
    g.Reaches γ i := by
  obtain ⟨inside, ⟨front, head⟩ | inKernel⟩ := mem_closure.mp member
  · obtain ⟨j, earlier, next⟩ : ∃ j, g.Reaches γ j ∧
        j.next? = some (.nonTerminal i.production.head) := by
      refine of_mem_expected (fun n => ∃ j, g.Reaches γ j ∧ j.next? = some (.nonTerminal n))
        ?_ ?_ head
      · intro j hj n next
        exact ⟨j, reached j hj, next⟩
      · rintro p hp n ⟨j, earlier, next⟩ first
        refine ⟨⟨p, 0⟩, earlier.expand next hp, ?_⟩
        simpa [Item.next?, List.head?_eq_getElem?] using first
    obtain ⟨p, d⟩ := i
    cases front
    exact earlier.expand next (mem_items.mp inside).1
  · exact reached i inKernel

theorem exists_next (h : g.Reaches (γ ++ [X]) i) : ∃ j, g.Reaches γ j ∧ j.next? = some X := by
  generalize whole : γ ++ [X] = δ at h
  induction h with
  | start => simp at whole
  | expand _ _ _ ih => exact ih whole
  | @advance γ' j Y earlier next =>
    obtain ⟨rfl, same⟩ := List.append_inj' whole rfl
    cases same
    exact ⟨j, earlier, next⟩

end Reaches

/-- The set after a string has the items that the string reaches. -/
theorem mem_after_iff : i ∈ g.after γ ↔ g.Reaches γ i := by
  refine ⟨?_, Reaches.mem_after⟩
  intro member
  induction γ using List.reverseRecOn generalizing i with
  | nil =>
    refine Reaches.closure ?_ member
    intro j hj
    obtain ⟨p, hp, rfl⟩ := List.mem_map.mp hj
    exact .start (by simpa using hp)
  | append_singleton γ X ih =>
    rw [after_concat, advance_eq] at member
    refine Reaches.closure ?_ member
    intro j hj
    obtain ⟨i, hi, next, rfl⟩ := mem_moved.mp hj
    exact (ih hi).advance next

/-! ### Sets as lists -/

theorem selected_closure (g : Grammar) (kernel : ItemSet) :
    Saturation.Selected g.items (g.closure kernel) := by
  unfold Saturation.Selected
  apply List.filter_congr
  intro i hi
  rw [Bool.eq_iff_iff, List.contains_iff_mem, closure, List.mem_filter]
  simp [hi]

theorem selected_after (g : Grammar) (γ : List Symbol) :
    Saturation.Selected g.items (g.after γ) := by
  obtain ⟨kernel, -, same⟩ := g.after_eq_closure γ
  rw [same]
  exact selected_closure g kernel

theorem after_eq_of_mem_iff (h : ∀ i, i ∈ g.after γ ↔ i ∈ g.after δ) : g.after γ = g.after δ := by
  rw [← selected_after g γ, ← selected_after g δ]
  apply List.filter_congr
  intro i _
  rw [Bool.eq_iff_iff, List.contains_iff_mem, List.contains_iff_mem]
  exact h i

/-! ### The states that are explored -/

theorem mem_foldl_discover {known found : List ItemSet} (h : s ∈ found.foldl discover known) :
    s ∈ known ∨ s ∈ found := by
  induction found generalizing known with
  | nil => exact Or.inl h
  | cons u found ih =>
    rcases ih h with h | h
    · unfold discover at h
      split at h
      · exact Or.inl h
      · rcases List.mem_append.mp h with h | h
        · exact Or.inl h
        · exact Or.inr (List.mem_cons.mpr (Or.inl (List.mem_singleton.mp h)))
    · exact Or.inr (List.mem_cons_of_mem u h)

/-- What holds of the known sets and passes to their successors holds of all that is explored. -/
theorem of_mem_explore (holds : ItemSet → Prop)
    (step : ∀ s, holds s → ∀ X ∈ nextSymbols s, holds (g.advance s X)) {n : Nat}
    {known : List ItemSet} {position : Nat} (start : ∀ s ∈ known, holds s)
    (h : s ∈ g.explore n known position) : holds s := by
  induction n generalizing known position with
  | zero => exact start s h
  | succ n ih =>
    rw [explore] at h
    split at h
    · exact start s h
    · rename_i u here
      refine ih ?_ h
      intro v hv
      rcases mem_foldl_discover hv with hv | hv
      · exact start v hv
      · obtain ⟨X, hX, rfl⟩ := List.mem_map.mp hv
        exact step u (start u (List.mem_of_getElem? here)) X hX

theorem exists_after_of_mem_states (first : g.start? = some root) (hs : s ∈ g.states) :
    (∃ i, i ∈ s) ∧ ∃ γ, s = g.after γ := by
  refine of_mem_explore (fun s => (∃ i, i ∈ s) ∧ ∃ γ, s = g.after γ) ?_ ?_ hs
  · rintro s ⟨-, γ, rfl⟩ X hX
    obtain ⟨i, member, next⟩ := mem_nextSymbols.mp hX
    refine ⟨⟨i.advance, ?_⟩, γ ++ [X], (after_concat γ X).symm⟩
    rw [← after_concat]
    exact advance_mem_after member next
  · intro s hs
    obtain rfl := List.mem_singleton.mp hs
    exact ⟨⟨_, start_mem_initial first⟩, [], rfl⟩

theorem after_mem_states (h : g.Reaches γ i) : g.after γ ∈ g.states := by
  induction γ using List.reverseRecOn generalizing i with
  | nil => exact List.mem_of_getElem? g.states_zero
  | append_singleton γ X ih =>
    obtain ⟨j, earlier, next⟩ := h.exists_next
    rw [after_concat]
    exact advance_mem_states (ih earlier) earlier.mem_after next

/-- A numbering of the sets of items that strings reach: no two of them have the same items, and the
set that the empty string reaches is the first. -/
structure Enumerates (g : Grammar) (states : List ItemSet) : Prop where
  initial : ∃ s, states[0]? = some s ∧ ∀ i, i ∈ s ↔ g.Reaches [] i
  reached : ∀ s ∈ states, (∃ i, i ∈ s) ∧ ∃ γ, ∀ i, i ∈ s ↔ g.Reaches γ i
  complete : ∀ γ i, g.Reaches γ i → ∃ s ∈ states, ∀ j, j ∈ s ↔ g.Reaches γ j
  distinct : states.Pairwise fun s s' => ¬ ∀ i, i ∈ s ↔ i ∈ s'

/-- Exploration lists the automaton's states. -/
theorem enumerates_states (first : g.start? = some root) : g.Enumerates g.states where
  initial := ⟨g.initial, g.states_zero, fun _ => mem_after_iff (γ := [])⟩
  reached := by
    intro s hs
    obtain ⟨some, γ, rfl⟩ := exists_after_of_mem_states first hs
    exact ⟨some, γ, fun _ => mem_after_iff⟩
  complete := fun γ i reached => ⟨g.after γ, after_mem_states reached, fun _ => mem_after_iff⟩
  distinct := by
    refine explore_states.1.distinct.imp_of_mem ?_
    intro s s' hs hs' different same
    obtain ⟨-, γ, rfl⟩ := exists_after_of_mem_states first hs
    obtain ⟨-, δ, rfl⟩ := exists_after_of_mem_states first hs'
    exact different (after_eq_of_mem_iff same)

theorem explore_eq_of_enough {n m : Nat} {known : List ItemSet} {position : Nat}
    (h : g.Discovered known) (inside : position ≤ known.length)
    (enough : Nat.pow 2 g.items.length < n + position)
    (enough' : Nat.pow 2 g.items.length < m + position) :
    g.explore n known position = g.explore m known position := by
  have bound := h.length_le
  induction n generalizing m known position with
  | zero => omega
  | succ n ih =>
    obtain ⟨m, rfl⟩ : ∃ k, m = k + 1 := ⟨m - 1, by omega⟩
    rw [explore, explore]
    split
    · rfl
    · rename_i s here
      have selected : ∀ u ∈ (nextSymbols s).map (g.advance s), u.Sublist g.items := by
        intro u hu
        obtain ⟨X, -, rfl⟩ := List.mem_map.mp hu
        exact sublist_advance s X
      obtain ⟨sound, front, -⟩ := foldl_discover h selected
      have longer := (List.getElem?_eq_some_iff.mp here).1
      have := front.length_le
      exact ih sound (by omega) (by omega) (by omega) sound.length_le

theorem explore_eq_states {n : Nat} (enough : Nat.pow 2 g.items.length < n) :
    g.explore n [g.initial] 0 = g.states := by
  refine explore_eq_of_enough ⟨by simp, ?_⟩ (Nat.zero_le _) (by omega) (by omega)
  intro s hs
  exact List.mem_singleton.mp hs ▸ List.filter_sublist

/-! ### Transitions -/

/-- A state by number, with the items that a string reaches. -/
def StateAfter (g : Grammar) (γ : List Symbol) (q : Nat) : Prop :=
  ∃ s, g.states[q]? = some s ∧ (∃ i, i ∈ s) ∧ ∀ i, i ∈ s ↔ g.Reaches γ i

/-- The transitions of the automaton: reading one more symbol leads from state to state. -/
def Transition (g : Grammar) (q : Nat) (X : Symbol) (q' : Nat) : Prop :=
  ∃ γ, g.StateAfter γ q ∧ g.StateAfter (γ ++ [X]) q'

end Straightline.Grammar
