import Straightline.Proofs.Parsing

/-!
# The language of a control

What a run of a control that realizes an automaton returns for any tokens. It accepts when the
tokens start with a sentence and the end of input. Otherwise it stops at the first token that
carries on no sentence, or finds no more tokens where a sentence may go on (`run_cases`). Runs end
when reductions lower a weight on the stack.
-/
namespace Straightline

namespace Grammar

variable {g : Grammar} {n : NonTerminal}

/-- The strings that a non-terminal derives, with the end of input behind them. -/
def Sentence (g : Grammar) (n : NonTerminal) (kinds : List Kind) : Prop :=
  ∃ w, g.Generates n w ∧ kinds = w ++ [.endOfInput]

def Starts (g : Grammar) (n : NonTerminal) (kinds : List Kind) : Prop :=
  ∃ rest, g.Sentence n (kinds ++ rest)

theorem sentence_iff_exists_forest {tokens : List Token} :
    g.Sentence n (tokens.map (·.kind)) ↔
      ∃ (f : Forest g [.nonTerminal n]) (e : Token), e.kind = .endOfInput ∧
        tokens = f.yield ++ [e] := by
  constructor
  · rintro ⟨w, generated, same⟩
    obtain ⟨front, last, rfl, rfl, ended⟩ := List.map_eq_append_iff.mp same
    obtain ⟨e, rfl, ends⟩ := List.map_eq_singleton_iff.mp ended
    obtain ⟨f, rfl⟩ := generates_iff_exists_forest.mp generated
    exact ⟨f, e, ends, rfl⟩
  · rintro ⟨f, e, ends, rfl⟩
    exact ⟨_, generates_iff_exists_forest.mpr ⟨f, rfl⟩, by simp [ends]⟩

theorem Starts.of_prefix {u v : List Token} (h : g.Starts n (u.map (·.kind))) (front : v <+: u) :
    g.Starts n (v.map (·.kind)) := by
  obtain ⟨back, rfl⟩ := front
  obtain ⟨rest, sentence⟩ := h
  rw [List.map_append, List.append_assoc] at sentence
  exact ⟨_, sentence⟩

def Productive (g : Grammar) : Prop :=
  ∀ n, Nonempty (Forest g [.nonTerminal n])

theorem Productive.forest (productive : g.Productive) (α : List Symbol) :
    Nonempty (Forest g α) := by
  induction α with
  | nil => exact ⟨.nil⟩
  | cons X α ih =>
    obtain ⟨more⟩ := ih
    cases X with
    | terminal k => exact ⟨.token ⟨k, "", 0, 0⟩ rfl more⟩
    | nonTerminal n =>
      obtain ⟨f⟩ := productive n
      exact ⟨f.append more⟩

theorem Augmented.exists_body {root : Production} (augmented : g.Augmented root n)
    (f : Forest g [.nonTerminal root.head]) :
    ∃ f' : Forest g [.nonTerminal n], f'.yield = f.yield := by
  cases f with
  | node p member head children more =>
    cases more with
    | nil =>
      obtain rfl := augmented.single p member head
      rw [← augmented.body]
      exact ⟨children, by simp [Forest.yield]⟩

def weigh (weight : Symbol → Nat) : List Symbol → Nat
  | [] => 0
  | X :: α => weight X + weigh weight α

theorem weigh_append (weight : Symbol → Nat) (α β : List Symbol) :
    weigh weight (α ++ β) = weigh weight α + weigh weight β := by
  induction α with
  | nil => simp [weigh]
  | cons X α ih => simp [weigh, ih, Nat.add_assoc]

/-- Measures by which reductions lower the weight of a stack. -/
structure Weighing (g : Grammar) where
  weight : Symbol → Nat
  top : Nat
  light (k : Kind) : weight (.terminal k) ≤ top
  lowers (p : Production) : p ∈ g.productions → p.index ≠ 0 →
    weight (.nonTerminal p.head) < weigh weight p.body

/-- The steps that are left at most: a shift pays for the weight of its token. -/
def Weighing.load (w : g.Weighing) (c : Configuration) : Nat :=
  (w.top + 1) * c.input.length + weigh w.weight (symbolsOf c.stack)

theorem Weighing.load_lt (w : g.Weighing) {t : Control} {c c' : Configuration} {m : Move}
    (effect : Effect t g c (.next m c')) : w.load c' < w.load c := by
  cases effect with
  | @shift stack a rest q path =>
    have light := w.light a.kind
    simp only [load, symbolsOf_cons, weigh_append, weigh, List.length_cons, Nat.mul_add,
      ParseSymbol.symbol]
    omega
  | @reduce frames below input q p member other body path =>
    have lowers := w.lowers p member other
    simp only [load, symbolsOf_cons, symbolsOf_append, body, weigh_append, weigh,
      ParseSymbol.symbol]
    omega

end Grammar

open Grammar

variable {g : Grammar} {t : Control} {root : Production} {n : NonTerminal} {tokens : List Token}
  {ms : List Move}

theorem Parsed.starts (augmented : g.Augmented root n) (productive : g.Productive)
    {c : Configuration} (parsed : Parsed g tokens ms c) :
    ∃ u, tokens = u ++ c.input ∧ g.Starts n (u.map (·.kind)) := by
  obtain ⟨path, α, f, rfl, leaves, -⟩ := parsed
  refine ⟨f.yield, leaves.symm, ?_⟩
  obtain ⟨i, member⟩ := path.exists_mem augmented.start
  obtain ⟨η, derived⟩ := derives_of_mem_after augmented.start member
  obtain ⟨f'⟩ := productive.forest η
  have whole := derived.trans (f.derives.append f'.derives)
  rw [← List.map_append] at whole
  obtain ⟨tree, same⟩ := derives_iff_exists_forest.mp whole
  obtain ⟨body, same'⟩ := augmented.exists_body tree
  have generated := generates_iff_exists_forest.mpr ⟨body, same'.trans same⟩
  refine ⟨f'.yield.map (·.kind) ++ [.endOfInput], _, generated, ?_⟩
  rw [List.map_append, List.append_assoc]

section Halting

variable (numbered : g.Numbered) (realizes : t.Realizes g)
include numbered realizes

/-- Steps are paid for by the load that they take away. -/
theorem Grammar.Weighing.length_add_load_le (w : g.Weighing) {c c' : Configuration}
    (path : Path g c.stack) (steps : t.Steps ms c c') : ms.length + w.load c' ≤ w.load c := by
  induction steps with
  | refl c => simp
  | next first _ ih =>
    have effect := path.effect numbered realizes
    rw [first] at effect
    have lower := w.load_lt effect
    have further := ih effect.path
    rw [List.length_cons]
    omega

theorem Grammar.Weighing.length_lt_stepBudget (w : g.Weighing) (small : w.top < Nat.pow 2 32)
    {c : Configuration} (steps : t.Steps ms ⟨[], tokens⟩ c) :
    ms.length < Control.stepBudget tokens := by
  have short := w.length_add_load_le numbered realizes Path.nil steps
  have whole : w.load ⟨[], tokens⟩ = (w.top + 1) * tokens.length := rfl
  have few : (w.top + 1) * tokens.length ≤ Nat.pow 2 32 * tokens.length :=
    Nat.mul_le_mul_right tokens.length small
  have room : 0 < Nat.pow 2 32 := Nat.pow_pos Nat.two_pos
  show ms.length < Nat.pow 2 32 * (tokens.length + 1)
  rw [Nat.mul_add]
  omega

theorem exists_halt (w : g.Weighing) {c : Configuration} (path : Path g c.stack) :
    ∃ ms c', t.Steps ms c c' ∧ ∀ m d, t.step c' ≠ .next m d := by
  induction left : w.load c using Nat.strong_induction_on generalizing c with
  | h load ih =>
    subst left
    have effect := path.effect numbered realizes
    cases first : t.step c with
    | accepted q => exact ⟨[], c, .refl c, by simp [first]⟩
    | failed e => exact ⟨[], c, .refl c, by simp [first]⟩
    | next m d =>
      rw [first] at effect
      obtain ⟨ms, c', steps, halts⟩ := ih _ (w.load_lt effect) effect.path rfl
      exact ⟨m :: ms, c', .next first steps, halts⟩

end Halting

variable (augmented : g.Augmented root n) (realizes : t.Realizes g)
include augmented realizes

theorem accepted_of_sentence {u : List Token} (front : u <+: tokens)
    (sentence : g.Sentence n (u.map (·.kind))) :
    ∃ ms c q, t.Steps ms ⟨[], tokens⟩ c ∧ t.step c = .accepted q := by
  obtain ⟨rest, rfl⟩ := front
  obtain ⟨f, e, ends, rfl⟩ := sentence_iff_exists_forest.mp sentence
  rw [List.append_assoc]
  obtain ⟨ms, c, q, steps, accepts, -⟩ :=
    accepted_of_forest augmented.toRooted realizes f ends rest
  exact ⟨ms, c, q, steps, accepts⟩

/-- A token for which a run has no action carries on no sentence: with one carried on, the run would
come to the same stack and token, and accept. -/
theorem not_starts_of_error {u rest : List Token} {a : Token} {stack : List Frame}
    (steps : t.Steps ms ⟨[], u ++ a :: rest⟩ ⟨stack, a :: rest⟩)
    (acts : t.action (t.state stack) a.kind = .error) :
    ¬ g.Starts n ((u ++ [a]).map (·.kind)) := by
  rintro ⟨kinds, sentence⟩
  let more := kinds.map fun k => (⟨k, "", 0, 0⟩ : Token)
  have named : more.map (·.kind) = kinds := by simp [more, Function.comp_def]
  rw [← named, ← List.map_append, List.append_assoc] at sentence
  obtain ⟨ns, c, q, run, accepts⟩ :=
    accepted_of_sentence augmented realizes (List.prefix_refl _) sentence
  obtain ⟨u', consumed, again⟩ := steps.replace
  obtain rfl : u = u' := List.append_cancel_right consumed
  have rejects : t.step ⟨stack, a :: more⟩ = _ := Control.step_error acts
  have same := run.eq_of_halt (again (a :: more) rfl) (by simp [accepts]) (by simp [rejects])
  subst same
  cases accepts.symm.trans rejects

theorem not_sentence_of_failed {c : Configuration} {e : Error} (steps : t.Steps ms ⟨[], tokens⟩ c)
    (fails : t.step c = .failed e) :
    ¬ ∃ u, u <+: tokens ∧ g.Sentence n (u.map (·.kind)) := by
  rintro ⟨u, front, sentence⟩
  obtain ⟨ns, d, q, run, accepts⟩ := accepted_of_sentence augmented realizes front sentence
  have same := run.eq_of_halt steps (by simp [accepts]) (by simp [fails])
  subst same
  cases accepts.symm.trans fails

/-- The outcome of a run over any tokens. -/
theorem run_cases (productive : g.Productive) (w : g.Weighing) (small : w.top < Nat.pow 2 32)
    {σ : Type} {o : Observer σ} {s : σ} (quiet : o.Quiet s) (tokens : List Token) :
    ∃ outcome, t.runFor o (Control.stepBudget tokens) ⟨[], tokens⟩ s = some outcome ∧
      ((∃ u, u <+: tokens ∧ g.Sentence n (u.map (·.kind))) ∧ outcome = .ok () s ∨
        (¬ ∃ u, u <+: tokens ∧ g.Sentence n (u.map (·.kind))) ∧
          ((∃ u a rest q, tokens = u ++ a :: rest ∧ g.Starts n (u.map (·.kind)) ∧
              ¬ g.Starts n ((u ++ [a]).map (·.kind)) ∧
              outcome = .error (Control.unexpected q a) s) ∨
            g.Starts n (tokens.map (·.kind)) ∧ outcome = .error .unexpectedEnd s)) := by
  obtain ⟨ms, c, steps, halts⟩ := exists_halt augmented.numbered realizes w
    (show Path g (⟨[], tokens⟩ : Configuration).stack from .nil)
  have enough := w.length_lt_stepBudget augmented.numbered realizes small steps
  have parsed := (Parsed.initial g tokens).run augmented.numbered realizes steps
  have effect := parsed.path.effect augmented.numbered realizes
  cases last : t.step c with
  | next m d => exact absurd last (halts m d)
  | accepted q =>
    obtain ⟨f, e, rest, ends, rfl, -⟩ := parsed.accepted augmented.toRooted realizes last
    refine ⟨_, Control.runFor_of_accepted steps last (quiet.tell _) enough, Or.inl ⟨?_, rfl⟩⟩
    exact ⟨f.yield ++ [e], ⟨rest, by simp⟩, sentence_iff_exists_forest.mpr ⟨f, e, ends, rfl⟩⟩
  | failed e =>
    refine ⟨_, Control.runFor_of_failed steps last (quiet.tell _) enough, Or.inr ⟨?_, ?_⟩⟩
    · exact not_sentence_of_failed augmented realizes steps last
    · obtain ⟨u, rfl, starts⟩ := parsed.starts augmented productive
      rw [last] at effect
      cases effect with
      | @reject stack a rest acts =>
        exact Or.inl ⟨u, a, rest, _, rfl, starts, not_starts_of_error augmented realizes steps acts,
          rfl⟩
      | starve =>
        rw [List.append_nil]
        exact Or.inr ⟨starts, rfl⟩

end Straightline
