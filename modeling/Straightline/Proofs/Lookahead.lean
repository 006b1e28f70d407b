import Straightline.Grammar.Lookahead
import Straightline.Proofs.Derivation

/-!
# Lookahead sets cover derivations

Nullable, FIRST and FOLLOW are closed under the rules that define them. By induction on a forest,
a string that derives no token vanishes, and the first token that it derives is in its FIRST; the
token behind a derived non-terminal is then in the FOLLOW of that non-terminal.
-/
namespace Straightline

namespace Saturation

variable {α : Type} [BEq α] [LawfulBEq α] {domain : List α} {rule : List α → α → Bool}

theorem mem_saturate_of_rule {a : α} (inside : a ∈ domain)
    (follows : rule (saturate domain rule) a = true) : a ∈ saturate domain rule := by
  rw [← round_saturate]
  exact mem_round.mpr ⟨inside, Or.inr follows⟩

end Saturation

namespace Grammar

open Saturation

variable {g : Grammar} {p : Production} {α β : List Symbol} {n : NonTerminal} {k : Kind}

theorem mem_lookaheadPairs (n : NonTerminal) (k : Kind) : (n, k) ∈ lookaheadPairs := by
  simp [lookaheadPairs, NonTerminal.mem_all, Kind.mem_all]

/-! ### The sets are closed -/

@[simp] theorem vanishes_nonTerminal (known : List NonTerminal) (n : NonTerminal) :
    vanishes known (.nonTerminal n) = true ↔ n ∈ known := by
  simp [vanishes]

theorem startsWith_terminal (known : List NonTerminal) (first : List (NonTerminal × Kind))
    (t : Kind) (β : List Symbol) (k : Kind) :
    startsWith known first (.terminal t :: β) k = true ↔ t = k := by
  simp [startsWith, leaders, vanishes]

theorem startsWith_nonTerminal (known : List NonTerminal) (first : List (NonTerminal × Kind))
    (n : NonTerminal) (β : List Symbol) (k : Kind) :
    startsWith known first (.nonTerminal n :: β) k = true ↔
      (n, k) ∈ first ∨ n ∈ known ∧ startsWith known first β k = true := by
  unfold startsWith
  rw [leaders]
  by_cases gone : n ∈ known
  · rw [if_pos (by simpa using gone), List.any_cons, Bool.or_eq_true]
    simp [gone]
  · rw [if_neg (by simpa using gone)]
    simp [gone]

theorem head_mem_nullable (member : p ∈ g.productions)
    (h : p.body.all (vanishes g.nullable) = true) : p.head ∈ g.nullable := by
  apply mem_saturate_of_rule (NonTerminal.mem_all _)
  refine List.any_eq_true.mpr ⟨p, member, ?_⟩
  rw [Bool.and_eq_true]
  exact ⟨by simp, h⟩

theorem head_mem_first (member : p ∈ g.productions)
    (h : startsWith g.nullable g.first p.body k = true) : (p.head, k) ∈ g.first := by
  apply mem_saturate_of_rule (mem_lookaheadPairs _ _)
  refine List.any_eq_true.mpr ⟨p, member, ?_⟩
  rw [Bool.and_eq_true]
  exact ⟨by simp, h⟩

theorem start_mem_follow (h : g.start? = some p) : (p.head, Kind.endOfInput) ∈ g.follow := by
  apply mem_saturate_of_rule (mem_lookaheadPairs _ _)
  simp [h]

theorem mem_occurrences (head : NonTerminal) (α : List Symbol) (n : NonTerminal)
    (β : List Symbol) : ⟨head, n, β⟩ ∈ occurrences head (α ++ .nonTerminal n :: β) := by
  induction α with
  | nil => simp [occurrences]
  | cons s α ih =>
    cases s with
    | terminal k => simpa [occurrences] using ih
    | nonTerminal m => simpa [occurrences] using Or.inr ih

/-- What may stand behind a non-terminal inside a body: what the rest of the body starts with,
or, when that vanishes, what may stand behind the head. -/
theorem mem_follow (member : p ∈ g.productions) (body : p.body = α ++ .nonTerminal n :: β)
    (h : startsWith g.nullable g.first β k = true ∨
      β.all (vanishes g.nullable) = true ∧ (p.head, k) ∈ g.follow) : (n, k) ∈ g.follow := by
  apply mem_saturate_of_rule (mem_lookaheadPairs _ _)
  have place : ⟨p.head, n, β⟩ ∈ g.productions.flatMap fun p => occurrences p.head p.body :=
    List.mem_flatMap.mpr ⟨p, member, body ▸ mem_occurrences p.head α n β⟩
  rw [Bool.or_eq_true]
  refine Or.inr (List.any_eq_true.mpr ⟨_, place, ?_⟩)
  rw [Bool.and_eq_true, Bool.or_eq_true, Bool.and_eq_true, List.contains_iff_mem]
  exact ⟨by simp, h⟩

/-! ### What forests show -/

namespace Forest

theorem all_vanishes (f : Forest g α) (empty : f.yield = []) :
    α.all (vanishes g.nullable) = true := by
  induction f with
  | nil => rfl
  | token t kind more => simp [yield] at empty
  | node p member head children more ihc ih =>
    rw [yield, List.append_eq_nil_iff] at empty
    subst head
    rw [List.all_cons, Bool.and_eq_true]
    exact ⟨(vanishes_nonTerminal _ _).mpr (head_mem_nullable member (ihc empty.1)), ih empty.2⟩

theorem startsWith (f : Forest g α) {t : Token} {w : List Token} (h : f.yield = t :: w) :
    Grammar.startsWith g.nullable g.first α t.kind = true := by
  induction f generalizing w with
  | nil => simp [yield] at h
  | token t' kind more =>
    rw [yield, List.cons.injEq] at h
    rw [startsWith_terminal, ← kind, h.1]
  | node p member head children more ihc ih =>
    subst head
    rw [startsWith_nonTerminal]
    cases empty : children.yield with
    | nil =>
      have gone := head_mem_nullable member (children.all_vanishes empty)
      exact Or.inr ⟨gone, ih (by simpa [yield, empty] using h)⟩
    | cons t' w' =>
      have : t' = t := (List.cons.inj (by simpa [yield, empty] using h)).1
      exact Or.inl (head_mem_first member (ihc (this ▸ empty)))

end Forest

theorem follow_of_forest (member : p ∈ g.productions) (body : p.body = α ++ .nonTerminal n :: β)
    (f : Forest g β) {t next : Token} {rest w : List Token}
    (after : (p.head, next.kind) ∈ g.follow) (h : f.yield ++ next :: rest = t :: w) :
    (n, t.kind) ∈ g.follow := by
  cases empty : f.yield with
  | nil =>
    have : next = t := by simpa [empty] using (List.cons.inj (by simpa [empty] using h)).1
    exact mem_follow member body (Or.inr ⟨f.all_vanishes empty, this ▸ after⟩)
  | cons t' w' =>
    have : t' = t := (List.cons.inj (by simpa [empty] using h)).1
    exact mem_follow member body (Or.inl (this ▸ f.startsWith empty))

end Grammar

end Straightline
