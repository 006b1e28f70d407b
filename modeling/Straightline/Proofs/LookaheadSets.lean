import Straightline.Proofs.Lookahead

/-!
# Lookahead sets are those of derivations

A non-terminal is nullable when it derives the empty string, a terminal is in its FIRST when it
derives a string that starts with the terminal, and in its FOLLOW when the two stand side by side in
a derived string (`mem_nullable_iff`, `mem_first_iff`, `mem_follow_iff`). The derived strings may
hold non-terminals that derive no tokens at all, so that there need not be a tree for them: the sets
are followed backwards through the steps of a derivation.
-/
namespace Straightline.Grammar

open Saturation

variable {g : Grammar} {p : Production} {α β γ : List Symbol} {n m : NonTerminal} {k : Kind}

theorem Derives.body (member : p ∈ g.productions) : g.Derives [.nonTerminal p.head] p.body := by
  simpa using Derives.apply member [] []

/-! ### Nullable -/

theorem derives_nil_of_vanishes {known : List NonTerminal}
    (sound : ∀ n ∈ known, g.Derives [.nonTerminal n] []) (h : α.all (vanishes known) = true) :
    g.Derives α [] := by
  induction α with
  | nil => exact .refl []
  | cons X α ih =>
    rw [List.all_cons, Bool.and_eq_true] at h
    cases X with
    | terminal k => simp [vanishes] at h
    | nonTerminal n =>
      have first := sound n ((vanishes_nonTerminal known n).mp h.1)
      simpa using first.append (ih h.2)

theorem Derives.all_vanishes (h : g.Derives α []) : α.all (vanishes g.nullable) = true := by
  obtain ⟨f, empty⟩ : ∃ f : Forest g α, f.yield = [] := derives_iff_exists_forest.mp h
  exact f.all_vanishes empty

theorem mem_nullable_iff : n ∈ g.nullable ↔ g.Derives [.nonTerminal n] [] := by
  constructor
  · intro h
    refine of_mem_saturate (fun n => g.Derives [.nonTerminal n] []) ?_ h
    intro known n sound rule
    obtain ⟨p, member, both⟩ := List.any_eq_true.mp rule
    rw [Bool.and_eq_true, beq_iff_eq] at both
    obtain ⟨rfl, gone⟩ := both
    exact (Derives.body member).trans (derives_nil_of_vanishes sound gone)
  · intro h
    simpa using h.all_vanishes

theorem all_vanishes_iff : α.all (vanishes g.nullable) = true ↔ g.Derives α [] :=
  ⟨derives_nil_of_vanishes fun _ => mem_nullable_iff.mp, Derives.all_vanishes⟩

/-! ### FIRST -/

theorem startsWith_append {known : List NonTerminal} {first : List (NonTerminal × Kind)} :
    startsWith known first (α ++ β) k = true ↔ startsWith known first α k = true ∨
      α.all (vanishes known) = true ∧ startsWith known first β k = true := by
  induction α with
  | nil => simp [startsWith, leaders]
  | cons X α ih =>
    rw [List.cons_append, List.all_cons, Bool.and_eq_true]
    cases X with
    | terminal t => simp [startsWith_terminal, vanishes]
    | nonTerminal n =>
      rw [startsWith_nonTerminal, startsWith_nonTerminal, ih, vanishes_nonTerminal]
      grind

theorem exists_derives_of_startsWith {first : List (NonTerminal × Kind)}
    (sound : ∀ n, (n, k) ∈ first → ∃ η, g.Derives [.nonTerminal n] (.terminal k :: η))
    (h : startsWith g.nullable first α k = true) : ∃ η, g.Derives α (.terminal k :: η) := by
  induction α with
  | nil => simp [startsWith, leaders] at h
  | cons X α ih =>
    cases X with
    | terminal t =>
      obtain rfl := (startsWith_terminal _ _ _ _ _).mp h
      exact ⟨α, .refl _⟩
    | nonTerminal n =>
      rcases (startsWith_nonTerminal _ _ _ _ _).mp h with here | ⟨gone, later⟩
      · obtain ⟨η, derived⟩ := sound n here
        exact ⟨η ++ α, by simpa using derived.append (.refl α)⟩
      · obtain ⟨η, derived⟩ := ih later
        exact ⟨η, by simpa using (mem_nullable_iff.mp gone).append derived⟩

theorem Produces.all_vanishes (step : g.Produces α β) (h : β.all (vanishes g.nullable) = true) :
    α.all (vanishes g.nullable) = true :=
  all_vanishes_iff.mpr ((Relation.ReflTransGen.single step).trans (all_vanishes_iff.mp h))

theorem Produces.startsWith (step : g.Produces α β)
    (h : Grammar.startsWith g.nullable g.first β k = true) :
    Grammar.startsWith g.nullable g.first α k = true := by
  cases step with
  | @apply p member left right =>
    rw [List.append_assoc, startsWith_append, startsWith_append] at h
    rw [startsWith_append, startsWith_nonTerminal]
    refine h.imp_right (And.imp_right ?_)
    rintro (inside | ⟨gone, behind⟩)
    · exact Or.inl (head_mem_first member inside)
    · exact Or.inr ⟨head_mem_nullable member gone, behind⟩

theorem Derives.startsWith (derived : g.Derives α β)
    (h : Grammar.startsWith g.nullable g.first β k = true) :
    Grammar.startsWith g.nullable g.first α k = true := by
  induction derived using Relation.ReflTransGen.head_induction_on with
  | refl => exact h
  | head step _ ih => exact step.startsWith ih

theorem mem_first_iff : (n, k) ∈ g.first ↔ ∃ η, g.Derives [.nonTerminal n] (.terminal k :: η) := by
  constructor
  · intro h
    refine of_mem_saturate
      (fun pair => ∃ η, g.Derives [.nonTerminal pair.1] (.terminal pair.2 :: η)) ?_ h
    rintro known ⟨n, k⟩ sound rule
    obtain ⟨p, member, both⟩ := List.any_eq_true.mp rule
    rw [Bool.and_eq_true, beq_iff_eq] at both
    obtain ⟨rfl, starts⟩ := both
    obtain ⟨η, derived⟩ := exists_derives_of_startsWith (fun n hn => sound (n, k) hn) starts
    exact ⟨η, (Derives.body member).trans derived⟩
  · rintro ⟨η, derived⟩
    have starts := derived.startsWith ((startsWith_terminal _ _ _ _ _).mpr rfl)
    simpa [startsWith_nonTerminal, startsWith, leaders] using starts

/-! ### FOLLOW -/

/-- A terminal stands right behind a non-terminal in a string that some non-terminal derives, or the
end of input stands behind a non-terminal that ends a string derived from the start rule's head. -/
def MayFollow (g : Grammar) (n : NonTerminal) (k : Kind) : Prop :=
  (∃ m α β, g.Derives [.nonTerminal m] (α ++ .nonTerminal n :: .terminal k :: β)) ∨
    k = .endOfInput ∧ ∃ root α, g.start? = some root ∧
      g.Derives [.nonTerminal root.head] (α ++ [.nonTerminal n])

theorem exists_of_mem_occurrences {head : NonTerminal} {o : Occurrence}
    (h : o ∈ occurrences head β) :
    o.head = head ∧ ∃ α, β = α ++ .nonTerminal o.symbol :: o.rest := by
  induction β with
  | nil => cases h
  | cons X β ih =>
    cases X with
    | terminal t =>
      obtain ⟨same, α, rfl⟩ := ih h
      exact ⟨same, .terminal t :: α, rfl⟩
    | nonTerminal n =>
      rcases List.mem_cons.mp h with rfl | h
      · exact ⟨rfl, [], rfl⟩
      · obtain ⟨same, α, rfl⟩ := ih h
        exact ⟨same, .nonTerminal n :: α, rfl⟩

theorem MayFollow.of_vanishes (h : g.MayFollow p.head k) (member : p ∈ g.productions)
    (body : p.body = α ++ .nonTerminal n :: β) (gone : g.Derives β []) : g.MayFollow n k := by
  have shortened : g.Derives (α ++ .nonTerminal n :: β) (α ++ [.nonTerminal n]) :=
    (Derives.refl α).append ((Derives.refl [.nonTerminal n]).append gone)
  rw [← body] at shortened
  have opened := (Derives.body member).trans shortened
  rcases h with ⟨m, left, right, derived⟩ | ⟨ends, root, left, start, derived⟩
  · have further := opened.between left (.terminal k :: right)
    exact Or.inl ⟨m, left ++ α, right, by simpa using derived.trans (by simpa using further)⟩
  · have further := opened.between left []
    have whole := derived.trans (by simpa using further)
    exact Or.inr ⟨ends, root, left ++ α, start, by simpa using whole⟩

/-- The terminals that may come first in what a string derives, with others behind it in case it
vanishes. -/
def Ahead (g : Grammar) (behind : Kind → Prop) (β : List Symbol) (k : Kind) : Prop :=
  startsWith g.nullable g.first β k = true ∨ β.all (vanishes g.nullable) = true ∧ behind k

theorem ahead_append {behind : Kind → Prop} :
    g.Ahead behind (α ++ β) k ↔ g.Ahead (g.Ahead behind β) α k := by
  unfold Ahead
  rw [startsWith_append, List.all_append, Bool.and_eq_true]
  grind

theorem Produces.ahead {behind : Kind → Prop} (step : g.Produces α β) (h : g.Ahead behind β k) :
    g.Ahead behind α k :=
  h.imp step.startsWith (And.imp_left step.all_vanishes)

/-- A string in which all that may come right behind a non-terminal is in its FOLLOW. -/
def Covered (g : Grammar) (behind : Kind → Prop) (γ : List Symbol) : Prop :=
  ∀ α n β, γ = α ++ .nonTerminal n :: β → ∀ k, g.Ahead behind β k → (n, k) ∈ g.follow

theorem append_eq_append_cons {left right : List Symbol} {X : Symbol}
    (same : left ++ right = α ++ X :: β) :
    (∃ β', left = α ++ X :: β' ∧ β = β' ++ right) ∨
      ∃ α', right = α' ++ X :: β ∧ α = left ++ α' := by
  rcases List.append_eq_append_iff.mp same with ⟨α', rfl, behind⟩ | ⟨inner, rfl, behind⟩
  · exact Or.inr ⟨α', behind, rfl⟩
  · cases inner with
    | nil => exact Or.inr ⟨[], by simpa using behind.symm, by simp⟩
    | cons Y inner =>
      obtain ⟨rfl, rfl⟩ := List.cons.inj behind
      exact Or.inl ⟨inner, rfl, rfl⟩

/-- A step keeps a string covered: the non-terminal is to the left of the production's body, inside
of it, or to its right. -/
theorem Produces.covered {behind : Kind → Prop} (step : g.Produces γ β)
    (covered : g.Covered behind γ) : g.Covered behind β := by
  cases step with
  | @apply p member left right =>
    intro α n β same k ahead
    rcases append_eq_append_cons same with ⟨β, front, rfl⟩ | ⟨α, rfl, rfl⟩
    · clear same
      rcases append_eq_append_cons front with ⟨β, rfl, rfl⟩ | ⟨α, body, rfl⟩
      · refine covered α n (β ++ .nonTerminal p.head :: right) (by simp) k ?_
        exact (Produces.apply member β right).ahead ahead
      · rw [ahead_append] at ahead
        refine mem_follow member body (ahead.imp_right (And.imp_right ?_))
        exact covered left p.head right rfl k
    · exact covered (left ++ .nonTerminal p.head :: α) n β (by simp) k ahead

theorem Derives.covered {behind : Kind → Prop} (derived : g.Derives γ β)
    (covered : g.Covered behind γ) : g.Covered behind β := by
  induction derived with
  | refl => exact covered
  | tail _ step ih => exact step.covered ih

theorem covered_of_derives (derived : g.Derives [.nonTerminal m] γ) :
    g.Covered (fun k => (m, k) ∈ g.follow) γ := by
  refine derived.covered ?_
  intro α n β same k ahead
  obtain ⟨rfl, rfl, rfl⟩ : α = [] ∧ n = m ∧ β = [] := by
    cases α <;> simp_all
  simpa [Ahead, startsWith, leaders] using ahead

/-- The FOLLOW of a non-terminal holds the terminals that stand behind it in derived strings. -/
theorem mem_follow_iff : (n, k) ∈ g.follow ↔ g.MayFollow n k := by
  constructor
  · intro h
    refine of_mem_saturate (fun pair => g.MayFollow pair.1 pair.2) ?_ h
    rintro known ⟨n, k⟩ sound rule
    rw [Bool.or_eq_true] at rule
    rcases rule with start | place
    · obtain ⟨ends, root, here, rfl⟩ : k = .endOfInput ∧
          ∃ root, g.start? = some root ∧ root.head = n := by
        simpa [Option.any_eq_true] using start
      exact Or.inr ⟨ends, root, [], here, .refl _⟩
    · obtain ⟨o, inside, both⟩ := List.any_eq_true.mp place
      obtain ⟨p, member, inside⟩ := List.mem_flatMap.mp inside
      obtain ⟨same, α, body⟩ := exists_of_mem_occurrences inside
      rw [Bool.and_eq_true, beq_iff_eq, Bool.or_eq_true, Bool.and_eq_true,
        List.contains_iff_mem] at both
      obtain ⟨rfl, starts | ⟨gone, after⟩⟩ := both
      · obtain ⟨η, derived⟩ := exists_derives_of_startsWith (fun n => mem_first_iff.mp) starts
        have further : g.Derives (α ++ .nonTerminal o.symbol :: o.rest) _ :=
          (Derives.refl α).append ((Derives.refl [.nonTerminal o.symbol]).append derived)
        rw [← body] at further
        exact Or.inl ⟨p.head, α, η, (Derives.body member).trans further⟩
      · rw [same] at after
        exact (sound _ after).of_vanishes member body (all_vanishes_iff.mp gone)
  · rintro (⟨m, α, β, derived⟩ | ⟨rfl, root, α, start, derived⟩)
    · refine covered_of_derives derived α n _ rfl k (Or.inl ?_)
      exact (startsWith_terminal _ _ _ _ _).mpr rfl
    · exact covered_of_derives derived α n [] rfl _ (Or.inr ⟨rfl, start_mem_follow start⟩)

end Straightline.Grammar
