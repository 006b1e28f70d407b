/-!
# Least fixed points over finite lists

A rule says which elements follow from known ones. `saturate` starts from nothing and lets the rule
add elements of a finite domain, round after round, until a round adds none; the domain's
length bounds the number of rounds that add something. The result is closed under the rule
(`round_saturate`) and lies in every closed set (`of_mem_saturate`).
-/
namespace Straightline.Saturation

variable {α : Type} [BEq α]

/-- One round: what is known, and what follows from it, in the domain's order. -/
def round (domain : List α) (rule : List α → α → Bool) (known : List α) : List α :=
  domain.filter fun a => known.contains a || rule known a

/-- At most `n` rounds, stopping after one that adds nothing. -/
def rounds (domain : List α) (rule : List α → α → Bool) : Nat → List α → List α
  | 0, known => known
  | n + 1, known =>
    let next := round domain rule known
    if next.length = known.length then known else rounds domain rule n next

/-- The elements of the domain that the rule yields from nothing. -/
def saturate (domain : List α) (rule : List α → α → Bool) : List α :=
  rounds domain rule domain.length []

variable [LawfulBEq α] {domain known : List α} {rule : List α → α → Bool}

theorem mem_round {a : α} :
    a ∈ round domain rule known ↔ a ∈ domain ∧ (a ∈ known ∨ rule known a = true) := by
  simp [round]

/-- A list of elements of the domain in its order, each as often as it is there. -/
def Selected (domain known : List α) : Prop :=
  domain.filter (known.contains ·) = known

theorem selected_nil (domain : List α) : Selected domain [] := by
  simp [Selected]

theorem selected_round (domain : List α) (rule : List α → α → Bool) (known : List α) :
    Selected domain (round domain rule known) := by
  unfold Selected
  conv => rhs; unfold round
  apply List.filter_congr
  intro a ha
  rw [Bool.eq_iff_iff, List.contains_iff_mem, mem_round]
  simp [ha]

theorem sublist_round (rule : List α → α → Bool) (h : Selected domain known) :
    known.Sublist (round domain rule known) := by
  have kept : known = (round domain rule known).filter (known.contains ·) := by
    rw [round, List.filter_filter]
    conv => lhs; rw [← h]
    apply List.filter_congr
    intro a _
    by_cases ha : a ∈ known <;> simp [ha]
  rw [kept]
  conv => arg 2; rw [← kept]
  exact List.filter_sublist

theorem round_rounds {n : Nat} (h : Selected domain known)
    (enough : domain.length ≤ known.length + n) :
    round domain rule (rounds domain rule n known) = rounds domain rule n known := by
  induction n generalizing known with
  | zero =>
    have longest : (round domain rule known).length ≤ domain.length := List.length_filter_le ..
    have shortest := (sublist_round rule h).length_le
    exact ((sublist_round rule h).eq_of_length (by omega)).symm
  | succ n ih =>
    have sub := sublist_round rule h
    rw [rounds]
    split
    · rename_i same
      exact (sub.eq_of_length same.symm).symm
    · rename_i grown
      have longer := sub.length_le
      exact ih (selected_round domain rule known) (by omega)

/-- What saturation yields is closed: another round adds nothing. -/
theorem round_saturate (domain : List α) (rule : List α → α → Bool) :
    round domain rule (saturate domain rule) = saturate domain rule :=
  round_rounds (selected_nil domain) (by simp)

theorem of_mem_rounds {n : Nat} {a : α} (closed : α → Prop)
    (step : ∀ known a, (∀ b ∈ known, closed b) → rule known a = true → closed a)
    (start : ∀ b ∈ known, closed b) (h : a ∈ rounds domain rule n known) : closed a := by
  induction n generalizing known with
  | zero => exact start a h
  | succ n ih =>
    rw [rounds] at h
    split at h
    · exact start a h
    · refine ih (fun b hb => ?_) h
      obtain ⟨-, hb | hb⟩ := mem_round.mp hb
      · exact start b hb
      · exact step known b start hb

theorem of_mem_saturate {a : α} (closed : α → Prop)
    (step : ∀ known a, (∀ b ∈ known, closed b) → rule known a = true → closed a)
    (h : a ∈ saturate domain rule) : closed a :=
  of_mem_rounds closed step (by simp) h

end Straightline.Saturation
