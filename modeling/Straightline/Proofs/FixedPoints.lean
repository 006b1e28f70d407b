import Straightline.Proofs.LookaheadSets

/-!
# Fixed points in any order

A rule that says no less when more is known may be applied to one element after another instead of
round by round. However that is done, it comes to an end, and the elements known then are those of
the least fixed point (`endsWith_of_least`). This is so for the rules of nullable, FIRST and FOLLOW,
whose fixed points are the sets that derivations give (`Grammar.lookahead_exact`).
-/
namespace Straightline

namespace Saturation

variable {α : Type} {rule : List α → α → Prop} {known later start result domain : List α} {a : α}

/-- One more element, which follows from those known. -/
inductive Adds (rule : List α → α → Prop) (known : List α) : List α → Prop where
  | add {a : α} (new : a ∉ known) (follows : rule known a) : Adds rule known (known ++ [a])

/-- Knowing more, a rule says no less. -/
def Grows (rule : List α → α → Prop) : Prop :=
  ∀ ⦃known known' : List α⦄, known ⊆ known' → ∀ a, rule known a → rule known' a

/-- What is known when additions from a list have come to an end. -/
structure Last (rule : List α → α → Prop) (start known : List α) : Prop where
  chain : Relation.ReflTransGen (Adds rule) start known
  ended : ∀ later, ¬ Adds rule known later

/-- Additions cannot go on for ever, and wherever those from a list end, the elements of the result
are known. -/
structure EndsWith (rule : List α → α → Prop) (start result : List α) : Prop where
  ends : WellFounded fun later earlier => Adds rule earlier later
  reached : ∃ known, Last rule start known
  same : ∀ known, Last rule start known → ∀ a, a ∈ known ↔ a ∈ result

theorem wellFounded_adds [DecidableEq α] (bounded : ∀ known a, rule known a → a ∈ domain) :
    WellFounded fun later earlier => Adds rule earlier later := by
  let left (known : List α) : Nat := (domain.filter fun a => !known.contains a).length
  apply Subrelation.wf (r := fun later earlier => left later < left earlier) ?_ (measure left).wf
  intro later known step
  cases step with
  | @add a new follows =>
    have fewer : (domain.filter fun b => !(known ++ [a]).contains b) =
        (domain.filter fun b => !known.contains b).filter fun b => !decide (b = a) := by
      rw [List.filter_filter]
      apply List.filter_congr
      intro b _
      simp [Bool.and_comm]
    show (domain.filter fun b => !(known ++ [a]).contains b).length < _
    rw [fewer]
    apply List.length_filter_lt_length_iff_exists.mpr
    refine ⟨a, List.mem_filter.mpr ⟨bounded known a follows, ?_⟩, ?_⟩
    · simpa using new
    · simp

theorem exists_last (ends : WellFounded fun later earlier => Adds rule earlier later)
    (start : List α) : ∃ known, Last rule start known := by
  induction start using ends.induction with
  | h start ih =>
    by_cases more : ∃ later, Adds rule start later
    · rcases more with ⟨later, step⟩
      rcases ih later step with ⟨known, chain, ended⟩
      exact ⟨known, .head step chain, ended⟩
    · exact ⟨start, .refl, not_exists.mp more⟩

theorem Last.closed [DecidableEq α] (last : Last rule start known) (follows : rule known a) :
    a ∈ known := by
  by_cases new : a ∈ known
  · exact new
  · exact absurd (.add new follows) (last.ended _)

theorem Adds.subset (step : Adds rule known later) : known ⊆ later := by
  cases step
  exact List.subset_append_left _ _

theorem subset_of_adds (chain : Relation.ReflTransGen (Adds rule) start known) : start ⊆ known := by
  induction chain with
  | refl => exact List.Subset.refl _
  | tail _ step ih => exact List.Subset.trans ih step.subset

theorem adds_subset (grows : Grows rule) (closed : ∀ a, rule result a → a ∈ result)
    (inside : start ⊆ result) (chain : Relation.ReflTransGen (Adds rule) start known) :
    known ⊆ result := by
  induction chain with
  | refl => exact inside
  | tail _ step ih =>
    cases step with
    | @add a new follows =>
      apply List.append_subset.mpr
      refine ⟨ih, ?_⟩
      intro b hb
      rw [List.mem_singleton.mp hb]
      exact closed a (grows ih a follows)

/-- The least closed list is where additions end. -/
theorem endsWith_of_least [DecidableEq α] (bounded : ∀ known a, rule known a → a ∈ domain)
    (grows : Grows rule) (inside : start ⊆ result) (closed : ∀ a, rule result a → a ∈ result)
    (least : ∀ known, start ⊆ known → (∀ a, rule known a → a ∈ known) → result ⊆ known) :
    EndsWith rule start result where
  ends := wellFounded_adds bounded
  reached := exists_last (wellFounded_adds bounded) start
  same := by
    intro known last a
    constructor
    · intro h
      exact adds_subset grows closed inside last.chain h
    · intro h
      exact least known (subset_of_adds last.chain) (fun _ => last.closed) h

/-! ### Rounds -/

section Rounds

variable [BEq α] [LawfulBEq α] {step : List α → α → Bool}

theorem rounds_of_length_le (h : Selected domain known) (longest : domain.length ≤ known.length)
    (n : Nat) : rounds domain step n known = known := by
  cases n with
  | zero => rfl
  | succ n =>
    have longer := (sublist_round step h).length_le
    have bound : (round domain step known).length ≤ domain.length := List.length_filter_le ..
    rw [rounds, if_pos (by omega)]

theorem rounds_eq_of_enough {n m : Nat} (h : Selected domain known)
    (enough : domain.length ≤ known.length + n) (enough' : domain.length ≤ known.length + m) :
    rounds domain step n known = rounds domain step m known := by
  induction n generalizing m known with
  | zero => rw [rounds_of_length_le h enough, rounds_of_length_le h enough]
  | succ n ih =>
    cases m with
    | zero => rw [rounds_of_length_le h enough', rounds_of_length_le h enough']
    | succ m =>
      rw [rounds, rounds]
      split
      · rfl
      · rename_i grown
        have longer := (sublist_round step h).length_le
        exact ih (selected_round domain step known) (by omega) (by omega)

/-- A rule that yields a result round by round, in as many rounds as there are elements or more, and
in any other order. -/
structure Settles (domain : List α) (step : List α → α → Bool) (result : List α) : Prop
    extends EndsWith (fun known a => step known a = true) [] result where
  rounds : ∀ n, domain.length ≤ n → rounds domain step n [] = result

theorem settles_saturate [DecidableEq α] (complete : ∀ a, a ∈ domain)
    (grows : Grows fun known a => step known a = true) :
    Settles domain step (saturate domain step) where
  toEndsWith := by
    apply endsWith_of_least (fun known a _ => complete a) grows
    · exact List.nil_subset _
    · intro a follows
      exact mem_saturate_of_rule (complete a) follows
    · intro known _ closed a h
      refine of_mem_saturate (· ∈ known) ?_ h
      intro known' b inside follows
      exact closed b (grows inside b follows)
  rounds := by
    intro n enough
    exact rounds_eq_of_enough (selected_nil domain) (by simpa using enough) (by simp)

end Rounds

end Saturation

/-! ### Lookahead -/

namespace Grammar

open Saturation

variable {g : Grammar} {k : Kind} {β : List Symbol}

def nullableRule (g : Grammar) (known : List NonTerminal) (n : NonTerminal) : Bool :=
  g.productions.any fun p => p.head == n && p.body.all (vanishes known)

def firstRule (g : Grammar) (known : List (NonTerminal × Kind)) : NonTerminal × Kind → Bool :=
  fun (n, k) => g.productions.any fun p => p.head == n && startsWith g.nullable known p.body k

/-- A terminal follows a non-terminal when it comes first in what stands behind it in a body, or
follows the head when that vanishes. -/
def followRule (g : Grammar) (known : List (NonTerminal × Kind)) : NonTerminal × Kind → Bool :=
  fun (n, k) =>
    (k == .endOfInput && g.start?.any (·.head == n)) ||
      (g.productions.flatMap fun p => occurrences p.head p.body).any fun o => o.symbol == n &&
        (startsWith g.nullable g.first o.rest k ||
          (o.rest.all (vanishes g.nullable) && known.contains (o.head, k)))

theorem nullable_eq (g : Grammar) : g.nullable = saturate NonTerminal.all g.nullableRule := rfl

theorem first_eq (g : Grammar) : g.first = saturate lookaheadPairs g.firstRule := rfl

theorem follow_eq (g : Grammar) : g.follow = saturate lookaheadPairs g.followRule := rfl

theorem any_and_mono {β : Type} {l : List β} {p q q' : β → Bool}
    (more : ∀ x, q x = true → q' x = true) (h : l.any (fun x => p x && q x) = true) :
    l.any (fun x => p x && q' x) = true := by
  rcases List.any_eq_true.mp h with ⟨x, member, both⟩
  apply List.any_eq_true.mpr
  refine ⟨x, member, ?_⟩
  rw [Bool.and_eq_true] at both ⊢
  exact both.imp_right (more x)

theorem vanishes_mono {known known' : List NonTerminal} (more : known ⊆ known') {X : Symbol}
    (h : vanishes known X = true) : vanishes known' X = true := by
  cases X with
  | terminal k => exact h
  | nonTerminal n =>
    rw [vanishes_nonTerminal] at h ⊢
    exact more h

theorem startsWith_mono {known known' : List (NonTerminal × Kind)} (more : known ⊆ known')
    (h : startsWith g.nullable known β k = true) : startsWith g.nullable known' β k = true := by
  induction β with
  | nil => exact h
  | cons X β ih =>
    cases X with
    | terminal t =>
      rw [startsWith_terminal] at h ⊢
      exact h
    | nonTerminal n =>
      rw [startsWith_nonTerminal] at h ⊢
      exact h.imp (fun here => more here) (And.imp_right ih)

theorem grows_nullableRule (g : Grammar) : Grows fun known n => g.nullableRule known n = true := by
  intro known known' more n follows
  apply any_and_mono ?_ follows
  intro p gone
  apply List.all_eq_true.mpr
  intro X hX
  exact vanishes_mono more (List.all_eq_true.mp gone X hX)

theorem grows_firstRule (g : Grammar) : Grows fun known x => g.firstRule known x = true := by
  rintro known known' more ⟨n, k⟩ follows
  apply any_and_mono ?_ follows
  intro p starts
  exact startsWith_mono more starts

theorem grows_followRule (g : Grammar) : Grows fun known x => g.followRule known x = true := by
  rintro known known' more ⟨n, k⟩ follows
  unfold followRule at follows ⊢
  rw [Bool.or_eq_true] at follows ⊢
  apply follows.imp_right
  apply any_and_mono
  intro o ahead
  rw [Bool.or_eq_true, Bool.and_eq_true, List.contains_iff_mem] at ahead ⊢
  exact ahead.imp_right (And.imp_right fun here => more here)

/-- Nullable, FIRST and FOLLOW are the sets that derivations give, from non-terminals that can be
reached and from others. Their rules settle on them, round by round and in any other order. -/
theorem lookahead_exact (g : Grammar) :
    Settles NonTerminal.all g.nullableRule g.nullable ∧
    Settles lookaheadPairs g.firstRule g.first ∧
    Settles lookaheadPairs g.followRule g.follow ∧
    (∀ n, n ∈ g.nullable ↔ g.Derives [.nonTerminal n] []) ∧
    (∀ n k, (n, k) ∈ g.first ↔ ∃ η, g.Derives [.nonTerminal n] (.terminal k :: η)) ∧
    ∀ n k, (n, k) ∈ g.follow ↔
      (∃ m α β, g.Derives [.nonTerminal m] (α ++ .nonTerminal n :: .terminal k :: β)) ∨
        k = .endOfInput ∧ ∃ root α, g.start? = some root ∧
          g.Derives [.nonTerminal root.head] (α ++ [.nonTerminal n]) := by
  refine ⟨?_, ?_, ?_, fun _ => mem_nullable_iff, fun _ _ => mem_first_iff, ?_⟩
  · rw [nullable_eq]
    exact settles_saturate NonTerminal.mem_all g.grows_nullableRule
  · rw [first_eq]
    exact settles_saturate (fun pair => mem_lookaheadPairs pair.1 pair.2) g.grows_firstRule
  · rw [follow_eq]
    exact settles_saturate (fun pair => mem_lookaheadPairs pair.1 pair.2) g.grows_followRule
  · intro n k
    exact mem_follow_iff

end Grammar

end Straightline
