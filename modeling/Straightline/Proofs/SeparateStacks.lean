import Mathlib.Logic.Relation
import Straightline.Proofs.Runs

/-!
# States and symbols apart

The machine pairs each symbol with the state it led to. `Stacks` keeps states and symbols apart and
drops from each as a production is long. The two go in step (`Stacks.reaches_iff`), so that the
separate stacks are always of one height (`Stacks.Reaches.height`).
-/
namespace Straightline

namespace Control

variable {n : Nat}

/-- Nothing but states below a number is entered. -/
structure Within (t : Control) (n : Nat) : Prop where
  initial : t.initial < n
  shift : ∀ q k q', t.action q k = .shift q' → q' < n
  goto : ∀ q N q', t.goto q N = some q' → q' < n

theorem pop?_eq_some_iff {stack below : List Frame} :
    pop? n stack = some below ↔ n ≤ stack.length ∧ stack.drop n = below := by
  induction n generalizing stack with
  | zero => simp [pop?]
  | succ n ih =>
    cases stack with
    | nil => simp [pop?]
    | cons frame stack => simp [pop?, ih]

end Control

/-- A stack of states, a stack of symbols, both top first, and the tokens ahead. -/
structure Stacks where
  states : List Nat
  symbols : List ParseSymbol
  input : List Token

namespace Stacks

variable {t : Control} {n : Nat} {s s' : Stacks} {c : Configuration} {m : Move}
  {tokens : List Token}

/-- The token below all symbols. -/
def bottom : ParseSymbol :=
  .token ⟨.endOfInput, "", 0, 0⟩

def ofConfiguration (t : Control) (c : Configuration) : Stacks :=
  ⟨c.stack.map (·.state) ++ [t.initial], c.stack.map (·.symbol) ++ [bottom], c.input⟩

/-- Steps on stacks of their own: a shift pushes onto each, and a reduction drops from each as many
as its production has symbols, with a state left below them. -/
inductive Next (t : Control) : Stacks → Move → Stacks → Prop where
  | shift {q q' : Nat} {states : List Nat} {symbols : List ParseSymbol} {a : Token}
    {rest : List Token} : t.action q a.kind = .shift q' →
    Next t ⟨q :: states, symbols, a :: rest⟩ (.shift q a)
      ⟨q' :: q :: states, .token a :: symbols, rest⟩
  | reduce {q q' q'' : Nat} {states below : List Nat} {symbols : List ParseSymbol} {a : Token}
    {rest : List Token} {p : Production} : t.action q a.kind = .reduce p →
    (q :: states).drop p.body.length = q' :: below → t.goto q' p.head = some q'' →
    Next t ⟨q :: states, symbols, a :: rest⟩ (.reduce q'' p)
      ⟨q'' :: q' :: below, .nonTerminal p.head :: symbols.drop p.body.length, a :: rest⟩

def Reaches (t : Control) : Stacks → Stacks → Prop :=
  Relation.ReflTransGen fun s s' => ∃ m, Next t s m s'

def start (t : Control) (tokens : List Token) : Stacks :=
  ⟨[t.initial], [bottom], tokens⟩

theorem head_states (t : Control) (stack : List Frame) :
    ∃ states, stack.map (·.state) ++ [t.initial] = t.state stack :: states := by
  cases stack with
  | nil => exact ⟨[], rfl⟩
  | cons frame stack => exact ⟨_, rfl⟩

theorem drop_append_bottom {α β : Type} {f : α → β} {b : β} {stack : List α}
    (enough : n ≤ stack.length) :
    (stack.map f ++ [b]).drop n = (stack.drop n).map f ++ [b] := by
  rw [List.drop_append_of_le_length (by simpa using enough), List.map_drop]

/-- Steps on separate stacks are the steps of the machine. -/
theorem next_iff :
    Next t (ofConfiguration t c) m s ↔ ∃ c', t.step c = .next m c' ∧ s = ofConfiguration t c' := by
  obtain ⟨stack, input⟩ := c
  obtain ⟨states, top⟩ := head_states t stack
  constructor
  · intro h
    unfold ofConfiguration at h
    rw [top] at h
    cases h with
    | shift acts => exact ⟨_, Control.step_shift acts, by simp [ofConfiguration, ← top]⟩
    | @reduce _ q' q'' _ below _ a rest p acts left goes =>
      rw [← top] at left
      -- a state is left below what is dropped, so the frames alone are enough
      have enough : p.body.length ≤ stack.length := by
        have longer := congrArg List.length left
        simp only [List.length_drop, List.length_append, List.length_map, List.length_cons,
          List.length_nil] at longer
        omega
      rw [drop_append_bottom enough] at left
      obtain ⟨states', top'⟩ := head_states t (stack.drop p.body.length)
      obtain ⟨rfl, rfl⟩ := List.cons.inj (top'.symm.trans left)
      refine ⟨_, Control.step_reduce acts (Control.pop?_eq_some_iff.mpr ⟨enough, rfl⟩) goes, ?_⟩
      simp only [ofConfiguration, List.map_cons, List.cons_append, left, drop_append_bottom enough]
  · rintro ⟨c', stepped, rfl⟩
    obtain ⟨a, rest, rfl, ⟨q, acts, rfl, rfl⟩ | ⟨p, below, q, acts, popped, goes, rfl, rfl⟩⟩ :=
      Control.step_next_cases stepped
    · simp only [ofConfiguration, List.map_cons, List.cons_append, top]
      exact .shift acts
    · obtain ⟨enough, rfl⟩ := Control.pop?_eq_some_iff.mp popped
      obtain ⟨states', top'⟩ := head_states t (stack.drop p.body.length)
      have left := drop_append_bottom (f := (·.state)) (b := t.initial) enough
      simp only [ofConfiguration, List.map_cons, List.cons_append, ← drop_append_bottom enough]
      rw [left, top']
      rw [top, top'] at left
      rw [top]
      exact .reduce acts left goes

theorem reaches_of_steps {ms : List Move} {c' : Configuration} (h : t.Steps ms c c') :
    Reaches t (ofConfiguration t c) (ofConfiguration t c') := by
  induction h with
  | refl => exact .refl
  | next first _ ih => exact .head ⟨_, next_iff.mpr ⟨_, first, rfl⟩⟩ ih

theorem reaches_iff : Reaches t (start t tokens) s ↔
    ∃ ms c, t.Steps ms ⟨[], tokens⟩ c ∧ s = ofConfiguration t c := by
  constructor
  · intro h
    induction h with
    | refl => exact ⟨[], _, .refl _, rfl⟩
    | tail _ stepped ih =>
      obtain ⟨ms, c, steps, rfl⟩ := ih
      obtain ⟨m, next⟩ := stepped
      obtain ⟨c', first, rfl⟩ := next_iff.mp next
      exact ⟨ms ++ [m], c', steps.trans (.next first (.refl c')), rfl⟩
  · rintro ⟨ms, c, steps, rfl⟩
    exact reaches_of_steps steps

/-! ### Heights and states -/

theorem Next.height (h : Next t s m s') (level : s.states.length = s.symbols.length) :
    s'.states.length = s'.symbols.length := by
  cases h with
  | shift => simpa using level
  | @reduce q q' q'' states left symbols a rest p acts dropped goes =>
    have shorter := congrArg List.length dropped
    simp only [List.length_drop, List.length_cons] at level shorter ⊢
    omega

theorem Reaches.height (h : Reaches t (start t tokens) s) :
    s.states.length = s.symbols.length := by
  induction h with
  | refl => rfl
  | tail _ stepped ih =>
    obtain ⟨m, next⟩ := stepped
    exact next.height ih

theorem Next.below (h : Next t s m s') (within : t.Within n) (states : ∀ q ∈ s.states, q < n) :
    ∀ q ∈ s'.states, q < n := by
  intro r hr
  cases h with
  | @shift q q' _ symbols a rest acts =>
    rcases List.mem_cons.mp hr with rfl | hr
    · exact within.shift q a.kind r acts
    · exact states r hr
  | @reduce q q' q'' _ left symbols a rest p acts dropped goes =>
    rcases List.mem_cons.mp hr with rfl | hr
    · exact within.goto q' p.head r goes
    · rw [← dropped] at hr
      exact states r (List.mem_of_mem_drop hr)

theorem Reaches.below (within : t.Within n) (h : Reaches t (start t tokens) s) :
    ∀ q ∈ s.states, q < n := by
  induction h with
  | refl => simpa [start] using within.initial
  | tail _ stepped ih =>
    obtain ⟨m, next⟩ := stepped
    exact next.below within ih

end Stacks

end Straightline
