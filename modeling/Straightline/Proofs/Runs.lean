import Straightline.Machine
import Straightline.Proofs.Sequencing

/-!
# Runs as sequences of moves

A run takes steps until one of them accepts or fails. What an observer does along it is what it
does when it is told the moves in order (`runFor_steps`, `exists_steps_of_runFor`). Of the tokens
that a run leaves ahead, its moves depend on the first alone (`Steps.replace`).
-/
namespace Straightline

namespace Observer

variable {σ : Type}

/-- The answer to moves that are told in order. -/
def tell (o : Observer σ) : List Move → EStateM Error σ Unit
  | [] => pure ()
  | m :: ms => do
    o m
    tell o ms

variable {o : Observer σ} {m : Move} {ms ns : List Move} {s s' : σ}

theorem tell_cons_eq_ok :
    o.tell (m :: ms) s = .ok () s' ↔ ∃ u, o m s = .ok () u ∧ o.tell ms u = .ok () s' := by
  refine eStateM_bind_eq_ok.trans ⟨?_, ?_⟩
  · rintro ⟨⟨⟩, u, answered, told⟩
    exact ⟨u, answered, told⟩
  · rintro ⟨u, answered, told⟩
    exact ⟨(), u, answered, told⟩

theorem tell_append_eq_ok :
    o.tell (ms ++ ns) s = .ok () s' ↔ ∃ u, o.tell ms s = .ok () u ∧ o.tell ns u = .ok () s' := by
  induction ms generalizing s with
  | nil =>
    show _ ↔ ∃ u, EStateM.Result.ok () s = .ok () u ∧ _
    simp
  | cons m ms ih =>
    simp only [List.cons_append, tell_cons_eq_ok, ih]
    constructor
    · rintro ⟨u, first, v, further, last⟩
      exact ⟨v, ⟨u, first, further⟩, last⟩
    · rintro ⟨v, ⟨u, first, further⟩, last⟩
      exact ⟨u, first, v, further, last⟩

theorem tell_cons {u : σ} (h : o m s = .ok () u) : o.tell (m :: ms) s = o.tell ms u := by
  show (o m >>= fun _ => o.tell ms) s = _
  simp only [bind, EStateM.bind, h]

theorem tell_append {u : σ} (h : o.tell ms s = .ok () u) : o.tell (ms ++ ns) s = o.tell ns u := by
  induction ms generalizing s with
  | nil =>
    cases h
    rfl
  | cons m ms ih =>
    obtain ⟨v, first, further⟩ := tell_cons_eq_ok.mp h
    rw [List.cons_append, tell_cons first, ih further]

theorem tell_map {τ : Type} {o' : Observer τ} {f : σ → τ}
    (answers : ∀ m s s', o m s = .ok () s' → o' m (f s) = .ok () (f s'))
    (h : o.tell ms s = .ok () s') : o'.tell ms (f s) = .ok () (f s') := by
  induction ms generalizing s with
  | nil =>
    cases h
    rfl
  | cons m ms ih =>
    obtain ⟨u, first, further⟩ := tell_cons_eq_ok.mp h
    rw [tell_cons (answers m s u first), ih further]

/-- An observer that answers every move in a state with that state. -/
def Quiet (o : Observer σ) (s : σ) : Prop :=
  ∀ m, o m s = .ok () s

theorem Quiet.tell (quiet : o.Quiet s) (ms : List Move) : o.tell ms s = .ok () s := by
  induction ms with
  | nil => rfl
  | cons m ms ih => exact tell_cons_eq_ok.mpr ⟨s, quiet m, ih⟩

end Observer

namespace Control

variable {t : Control} {c c' c'' : Configuration} {stack below : List Frame} {a : Token}
  {input : List Token} {p : Production} {q : Nat} {m : Move} {ms ns : List Move}

/-! ### One step -/

theorem step_shift (acts : t.action (t.state stack) a.kind = .shift q) :
    t.step ⟨stack, a :: input⟩ =
      .next (.shift (t.state stack) a) ⟨⟨.token a, q⟩ :: stack, input⟩ := by
  simp only [step, acts]

theorem step_reduce (acts : t.action (t.state stack) a.kind = .reduce p)
    (popped : pop? p.body.length stack = some below)
    (goes : t.goto (t.state below) p.head = some q) :
    t.step ⟨stack, a :: input⟩ =
      .next (.reduce q p) ⟨⟨.nonTerminal p.head, q⟩ :: below, a :: input⟩ := by
  simp only [step, acts, reduce, popped, goes]

theorem step_accept (acts : t.action (t.state stack) a.kind = .accept) :
    t.step ⟨stack, a :: input⟩ = .accepted (t.state stack) := by
  simp only [step, acts]

theorem step_error (acts : t.action (t.state stack) a.kind = .error) :
    t.step ⟨stack, a :: input⟩ = .failed (unexpected (t.state stack) a) := by
  simp only [step, acts]

theorem step_next_cases (h : t.step c = .next m c') :
    ∃ a rest, c.input = a :: rest ∧
      ((∃ q, t.action (t.state c.stack) a.kind = .shift q ∧
          c' = ⟨⟨.token a, q⟩ :: c.stack, rest⟩ ∧ m = .shift (t.state c.stack) a) ∨
        ∃ p below q, t.action (t.state c.stack) a.kind = .reduce p ∧
          pop? p.body.length c.stack = some below ∧ t.goto (t.state below) p.head = some q ∧
          c' = ⟨⟨.nonTerminal p.head, q⟩ :: below, c.input⟩ ∧ m = .reduce q p) := by
  unfold step at h
  split at h
  · cases h
  · rename_i a rest ahead
    refine ⟨a, rest, ahead, ?_⟩
    dsimp only at h
    split at h
    · rename_i q acts
      cases h
      exact Or.inl ⟨q, acts, rfl, rfl⟩
    · rename_i p acts
      unfold reduce at h
      split at h
      · cases h
      · rename_i below popped
        split at h
        · cases h
        · rename_i q goes
          cases h
          exact Or.inr ⟨p, below, q, acts, popped, goes, rfl, rfl⟩
    · cases h
    · cases h

/-! ### Steps in sequence -/

inductive Steps (t : Control) : List Move → Configuration → Configuration → Prop where
  | refl (c : Configuration) : Steps t [] c c
  | next {m : Move} {ms : List Move} {c c' c'' : Configuration} (first : t.step c = .next m c')
    (further : Steps t ms c' c'') : Steps t (m :: ms) c c''

theorem Steps.trans (h : t.Steps ms c c') (h' : t.Steps ns c' c'') : t.Steps (ms ++ ns) c c'' := by
  induction h with
  | refl => exact h'
  | next first _ ih => exact .next first (ih h')

theorem Steps.unique_of_halt (h : t.Steps ms c c') (h' : t.Steps ns c c'')
    (halts : ∀ m d, t.step c' ≠ .next m d) (halts' : ∀ m d, t.step c'' ≠ .next m d) :
    ms = ns ∧ c' = c'' := by
  induction h generalizing ns with
  | refl =>
    cases h' with
    | refl => exact ⟨rfl, rfl⟩
    | next first _ => exact absurd first (halts _ _)
  | next first _ ih =>
    cases h' with
    | refl => exact absurd first (halts' _ _)
    | next first' further =>
      cases first.symm.trans first'
      obtain ⟨rfl, same⟩ := ih further halts
      exact ⟨rfl, same⟩

theorem Steps.eq_of_halt (h : t.Steps ms c c') (h' : t.Steps ns c c'')
    (halts : ∀ m d, t.step c' ≠ .next m d) (halts' : ∀ m d, t.step c'' ≠ .next m d) : c' = c'' :=
  (h.unique_of_halt h' halts halts').2

/-- Steps look no further than the first token that they leave ahead. -/
theorem Steps.replace (h : t.Steps ms c c') :
    ∃ u, c.input = u ++ c'.input ∧ ∀ y, y.head? = c'.input.head? →
      t.Steps ms ⟨c.stack, u ++ y⟩ ⟨c'.stack, y⟩ := by
  induction h with
  | refl c => exact ⟨[], rfl, fun y _ => .refl _⟩
  | @next m ms c d c'' first further ih =>
    obtain ⟨u, consumed, again⟩ := ih
    obtain ⟨a, rest, ahead, ⟨q, acts, rfl, rfl⟩ | ⟨p, below, q, acts, popped, goes, rfl, rfl⟩⟩ :=
      step_next_cases first
    · refine ⟨a :: u, ahead.trans (congrArg (a :: ·) consumed), ?_⟩
      intro y same
      exact .next (step_shift acts) (again y same)
    · refine ⟨u, consumed, ?_⟩
      intro y same
      -- the token that the reduction looks at is the first of `u` or, behind it, of `y`
      obtain ⟨rest', ahead'⟩ : ∃ rest', u ++ y = a :: rest' := by
        have front : (u ++ y).head? = (u ++ c''.input).head? := by
          rw [List.head?_append, List.head?_append, same]
        rw [← consumed, ahead] at front
        exact List.head?_eq_some_iff.mp front
      refine .next ?_ (again y same)
      rw [ahead']
      exact step_reduce acts popped goes

/-! ### Runs -/

variable {σ : Type} {o : Observer σ} {s s' : σ} {n : Nat}

theorem runFor_steps (h : t.Steps ms c c') (told : o.tell ms s = .ok () s') :
    t.runFor o (ms.length + n) c s = t.runFor o n c' s' := by
  induction h generalizing s with
  | refl =>
    cases told
    rw [List.length_nil, Nat.zero_add]
  | next first _ ih =>
    obtain ⟨u, answered, told⟩ := Observer.tell_cons_eq_ok.mp told
    rw [List.length_cons, Nat.add_right_comm, runFor, first]
    simp only [answered]
    exact ih told

/-- Observers that answer each step of a run answer the run: what relates their state to the
configuration and is kept by every step is there at the end. -/
theorem Steps.exists_told {I : Configuration → σ → Prop}
    (kept : ∀ c m c' s, I c s → t.step c = .next m c' → ∃ s', o m s = .ok () s' ∧ I c' s')
    (h : t.Steps ms c c') (start : I c s) : ∃ s', o.tell ms s = .ok () s' ∧ I c' s' := by
  induction h generalizing s with
  | refl c => exact ⟨s, rfl, start⟩
  | next first _ ih =>
    obtain ⟨u, answered, start⟩ := kept _ _ _ s start first
    obtain ⟨s', told, last⟩ := ih start
    exact ⟨s', Observer.tell_cons_eq_ok.mpr ⟨u, answered, told⟩, last⟩

/-- All that a run can end with: a step that fails, acceptance as the observer answers it, or a move
that the observer refuses. -/
theorem runFor_cases {outcome : EStateM.Result Error σ Unit}
    (h : t.runFor o n c s = some outcome) :
    ∃ ms c' u, t.Steps ms c c' ∧ o.tell ms s = .ok () u ∧
      ((∃ e, t.step c' = .failed e ∧ outcome = .error e u) ∨
        (∃ q, t.step c' = .accepted q ∧ outcome = o (.accept q) u) ∨
        ∃ m d e s', t.step c' = .next m d ∧ o m u = .error e s' ∧ outcome = .error e s') := by
  induction n generalizing c s with
  | zero => cases h
  | succ n ih =>
    unfold runFor at h
    split at h
    · rename_i e fails
      exact ⟨[], c, s, .refl c, rfl, Or.inl ⟨e, fails, (Option.some.inj h).symm⟩⟩
    · rename_i q accepts
      exact ⟨[], c, s, .refl c, rfl, Or.inr (Or.inl ⟨q, accepts, (Option.some.inj h).symm⟩)⟩
    · rename_i m d first
      split at h
      · rename_i e s' refused
        exact ⟨[], c, s, .refl c, rfl,
          Or.inr (Or.inr ⟨m, d, e, s', first, refused, (Option.some.inj h).symm⟩)⟩
      · rename_i u answered
        obtain ⟨ms, c', v, further, told, ends⟩ := ih h
        exact ⟨m :: ms, c', v, .next first further,
          Observer.tell_cons_eq_ok.mpr ⟨u, answered, told⟩, ends⟩

theorem exists_steps_of_runFor (h : t.runFor o n c s = some (.ok () s')) :
    ∃ ms c' q, t.Steps ms c c' ∧ t.step c' = .accepted q ∧
      o.tell (ms ++ [.accept q]) s = .ok () s' := by
  obtain ⟨ms, c', u, steps, told, ⟨e, -, ⟨⟩⟩ | ⟨q, accepts, answered⟩ | ⟨m, d, e, v, -, -, ⟨⟩⟩⟩ :=
    runFor_cases h
  refine ⟨ms, c', q, steps, accepts, Observer.tell_append_eq_ok.mpr ⟨u, told, ?_⟩⟩
  exact Observer.tell_cons_eq_ok.mpr ⟨s', answered.symm, rfl⟩

theorem runFor_of_accepted (h : t.Steps ms c c') (accepts : t.step c' = .accepted q)
    (told : o.tell (ms ++ [.accept q]) s = .ok () s') (enough : ms.length < n) :
    t.runFor o n c s = some (.ok () s') := by
  obtain ⟨u, told, last⟩ := Observer.tell_append_eq_ok.mp told
  obtain ⟨v, answered, done⟩ := Observer.tell_cons_eq_ok.mp last
  cases done
  refine runFor_of_le t o (n := ms.length + 1) ?_ enough
  rw [runFor_steps h told, runFor, accepts]
  simp only [answered]

theorem runFor_of_failed {e : Error} (h : t.Steps ms c c') (fails : t.step c' = .failed e)
    (told : o.tell ms s = .ok () s') (enough : ms.length < n) :
    t.runFor o n c s = some (.error e s') := by
  refine runFor_of_le t o (n := ms.length + 1) ?_ enough
  rw [runFor_steps h told, runFor, fails]

-- stated of the function, not of its value: with the tokens given, checking the equation would
-- start to count the steps
theorem run_def (t : Control) (o : Observer σ) :
    t.run o = fun tokens s =>
      match t.runFor o (stepBudget tokens) ⟨[], tokens⟩ s with
      | some outcome => outcome
      | none => .error (.stepLimit (stepBudget tokens)) s := rfl

variable {tokens : List Token}

theorem run_of_runFor {outcome : EStateM.Result Error σ Unit}
    (h : t.runFor o (stepBudget tokens) ⟨[], tokens⟩ s = some outcome) :
    t.run o tokens s = outcome := by
  rw [run_def]
  dsimp only
  rw [h]

theorem runFor_of_run (h : t.run o tokens s = .ok () s') :
    t.runFor o (stepBudget tokens) ⟨[], tokens⟩ s = some (.ok () s') := by
  rw [run_def] at h
  dsimp only at h
  cases ran : t.runFor o (stepBudget tokens) ⟨[], tokens⟩ s with
  | none =>
    rw [ran] at h
    cases h
  | some outcome =>
    rw [ran] at h
    exact congrArg some h

/-- Observers whose answers are the same, seen through a map of states, see the same run. -/
theorem runFor_map {τ : Type} {o' : Observer τ} {f : σ → τ}
    (answers : ∀ m s, o' m (f s) = onState f (o m s)) :
    t.runFor o' n c (f s) = (t.runFor o n c s).map (onState f) := by
  induction n generalizing c s with
  | zero => rfl
  | succ n ih =>
    rw [runFor, runFor]
    cases t.step c with
    | failed e => rfl
    | accepted q =>
      simp only [answers]
      rfl
    | next m d =>
      simp only [answers]
      cases o m s with
      | error e u => rfl
      | ok _ u => exact ih

theorem run_map {τ : Type} {o' : Observer τ} {f : σ → τ}
    (answers : ∀ m s, o' m (f s) = onState f (o m s)) :
    t.run o' tokens (f s) = onState f (t.run o tokens s) := by
  rw [run_def, run_def]
  dsimp only
  rw [runFor_map answers]
  cases t.runFor o (stepBudget tokens) ⟨[], tokens⟩ s with
  | none => rfl
  | some outcome => rfl

/-! ### Runs without a budget -/

/-- The outcome of a run that is given as many steps as it takes. -/
def Returns (t : Control) (o : Observer σ) (tokens : List Token) (s : σ)
    (outcome : EStateM.Result Error σ Unit) : Prop :=
  ∃ n, t.runFor o n ⟨[], tokens⟩ s = some outcome

theorem returns_of_run (h : t.run o tokens s = .ok () s') : t.Returns o tokens s (.ok () s') :=
  ⟨_, runFor_of_run h⟩

theorem returns_of_run_error {e : Error} (h : t.run o tokens s = .error e s') :
    t.Returns o tokens s (.error e s') ∨ e = .stepLimit (stepBudget tokens) := by
  rw [run_def] at h
  dsimp only at h
  cases ran : t.runFor o (stepBudget tokens) ⟨[], tokens⟩ s with
  | none =>
    rw [ran] at h
    cases h
    exact Or.inr rfl
  | some outcome =>
    rw [ran] at h
    exact Or.inl ⟨_, ran.trans (congrArg some h)⟩

/-- With its budget a run has the same outcome, or none before the budget is spent. -/
theorem run_of_returns {outcome : EStateM.Result Error σ Unit} (h : t.Returns o tokens s outcome) :
    t.run o tokens s = outcome ∨ t.run o tokens s = .error (.stepLimit (stepBudget tokens)) s := by
  obtain ⟨n, ran⟩ := h
  cases budgeted : t.runFor o (stepBudget tokens) ⟨[], tokens⟩ s with
  | none =>
    right
    rw [run_def]
    dsimp only
    rw [budgeted]
  | some outcome' =>
    left
    have long := runFor_of_le t o ran (Nat.le_max_left n (stepBudget tokens))
    have long' := runFor_of_le t o budgeted (Nat.le_max_right n (stepBudget tokens))
    rw [run_of_runFor budgeted]
    exact Option.some.inj (long'.symm.trans long)

end Control

end Straightline
