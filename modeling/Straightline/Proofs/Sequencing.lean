import Straightline.Error

/-!
# Computations in sequence

When computations in sequence succeed, each of them does: the inversion of a bind for the three
kinds of computation that can fail here, and for a map over a list. When they fail, the first that
does gives the error.
-/
namespace Straightline

theorem exists_of_isOk {ε α : Type} {x : Except ε α} (h : x.isOk = true) : ∃ a, x = .ok a := by
  cases x with
  | error e => cases h
  | ok a => exact ⟨a, rfl⟩

theorem bind_eq_ok {ε α β : Type} {x : Except ε α} {f : α → Except ε β} {b : β} :
    (x >>= f) = .ok b ↔ ∃ a, x = .ok a ∧ f a = .ok b := by
  cases x <;> simp [bind, Except.bind]

theorem mapM_eq_ok {ε α β : Type} {f : α → Except ε β} {l : List α} {ys : List β}
    (h : l.mapM f = .ok ys) {m : Nat} {a : α} (here : l[m]? = some a) :
    ∃ b, f a = .ok b ∧ ys[m]? = some b := by
  induction l generalizing ys m with
  | nil => simp at here
  | cons x l ih =>
    rw [List.mapM_cons] at h
    obtain ⟨y, first, h⟩ := bind_eq_ok.mp h
    obtain ⟨rest, further, h⟩ := bind_eq_ok.mp h
    cases h
    cases m with
    | zero =>
      cases here
      exact ⟨y, first, rfl⟩
    | succ m => exact ih further here

theorem mapM_length {ε α β : Type} {f : α → Except ε β} {l : List α} {ys : List β}
    (h : l.mapM f = .ok ys) : ys.length = l.length := by
  induction l generalizing ys with
  | nil =>
    cases h
    rfl
  | cons x l ih =>
    rw [List.mapM_cons] at h
    obtain ⟨y, -, h⟩ := bind_eq_ok.mp h
    obtain ⟨rest, further, h⟩ := bind_eq_ok.mp h
    cases h
    rw [List.length_cons, List.length_cons, ih further]

theorem bind_eq_error {ε α β : Type} {x : Except ε α} {f : α → Except ε β} {e : ε} :
    (x >>= f) = .error e ↔ x = .error e ∨ ∃ a, x = .ok a ∧ f a = .error e := by
  cases x <;> simp [bind, Except.bind]

theorem mapM_eq_error {ε α β : Type} {f : α → Except ε β} {l : List α} {e : ε}
    (h : l.mapM f = .error e) :
    ∃ (m : Nat) (a : α), l[m]? = some a ∧ f a = .error e ∧
      ∀ m' < m, ∀ a', l[m']? = some a' → ∃ b, f a' = .ok b := by
  induction l with
  | nil => cases h
  | cons x l ih =>
    rw [List.mapM_cons] at h
    rcases bind_eq_error.mp h with failed | ⟨y, first, h⟩
    · exact ⟨0, x, rfl, failed, fun m' before => absurd before (Nat.not_lt_zero m')⟩
    · rcases bind_eq_error.mp h with failed | ⟨rest, -, h⟩
      · obtain ⟨m, a, here, failed, before⟩ := ih failed
        refine ⟨m + 1, a, here, failed, ?_⟩
        intro m' earlier a' here'
        cases m' with
        | zero =>
          cases here'
          exact ⟨y, first⟩
        | succ m' => exact before m' (by omega) a' here'
      · cases h

theorem stateT_bind_eq_ok {σ ε α β : Type} {x : StateT σ (Except ε) α}
    {f : α → StateT σ (Except ε) β} {s : σ} {y : β × σ} :
    (x >>= f) s = .ok y ↔ ∃ a u, x s = .ok (a, u) ∧ f a u = .ok y := by
  simp only [bind, StateT.bind, Except.bind]
  cases x s with
  | error e => simp
  | ok got =>
    refine ⟨fun h => ⟨got.1, got.2, rfl, h⟩, ?_⟩
    rintro ⟨a, u, ⟨⟩, h⟩
    exact h

def stateOf {σ ε α : Type} : EStateM.Result ε σ α → σ
  | .ok _ s | .error _ s => s

theorem exists_of_isSome_run' {σ ε α : Type} {x : EStateM ε σ α} {s : σ}
    (h : (x.run' s).isSome = true) : ∃ a u, x s = .ok a u := by
  delta EStateM.run' EStateM.run at h
  cases ran : x s with
  | error e u =>
    rw [ran] at h
    cases h
  | ok a u => exact ⟨a, u, rfl⟩

/-- An outcome with its state seen through a map. -/
def onState {σ τ ε α : Type} (f : σ → τ) : EStateM.Result ε σ α → EStateM.Result ε τ α
  | .ok a s => .ok a (f s)
  | .error e s => .error e (f s)

theorem eStateM_bind_eq_ok {σ ε α β : Type} {x : EStateM ε σ α} {f : α → EStateM ε σ β}
    {s s' : σ} {b : β} :
    (x >>= f) s = .ok b s' ↔ ∃ a u, x s = .ok a u ∧ f a u = .ok b s' := by
  simp only [bind, EStateM.bind]
  cases x s with
  | error e u => simp
  | ok a u =>
    refine ⟨fun h => ⟨a, u, rfl, h⟩, ?_⟩
    rintro ⟨_, _, ⟨⟩, h⟩
    exact h

end Straightline
