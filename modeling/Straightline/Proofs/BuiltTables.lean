import Straightline.Observer.Subscriber
import Straightline.Proofs.Parsing

/-!
# Runs over built tables

What a run over the table of any grammar accepts, for grammars with vanishing, recursive,
unreachable and unproductive non-terminals alike: the strings that the start rule's symbol derives,
with the end of input behind them (`follow_built`). The reductions of an accepted run, read
backwards, are the productions of a rightmost derivation (`Forest.rightmost`).

A grammar may ask for more reductions than the budget of a run allows, so what is accepted is stated
for runs that are given as many steps as they take. A run with its budget returns the same, unless
the budget is spent before.
-/
namespace Straightline

/-! ### Rightmost derivations -/

namespace Move

def production? : Move → Option Nat
  | reduce _ p => some p.index
  | _ => none

@[simp] theorem production?_shift (q : Nat) (t : Token) : (shift q t).production? = none := rfl

@[simp] theorem production?_reduce (q : Nat) (p : Production) :
    (reduce q p).production? = some p.index := rfl

@[simp] theorem production?_accept (q : Nat) : (accept q).production? = none := rfl

@[simp] theorem production?_erase (m : Move) : m.erase.production? = m.production? := by
  cases m <;> rfl

@[simp] theorem production?_ofMove (m : Move) : (Event.ofMove m).production? = m.production? := by
  cases m <;> rfl

end Move

namespace Grammar

variable {g : Grammar} {α β γ : List Symbol} {ms ns : List Nat}

/-- Derivations that rewrite the last non-terminal at each step, with the numbers of the productions
applied. -/
inductive Rightmost (g : Grammar) : List Nat → List Symbol → List Symbol → Prop where
  | refl (α : List Symbol) : Rightmost g [] α α
  | apply {n : Nat} {p : Production} {ns : List Nat} {left γ : List Symbol} {right : List Kind}
    (here : g.production? n = some p)
    (further : Rightmost g ns (left ++ p.body ++ right.map .terminal) γ) :
    Rightmost g (n :: ns) (left ++ .nonTerminal p.head :: right.map .terminal) γ

theorem Rightmost.trans (h : g.Rightmost ms α β) (h' : g.Rightmost ns β γ) :
    g.Rightmost (ms ++ ns) α γ := by
  induction h with
  | refl => exact h'
  | apply here _ ih => exact .apply here (ih h')

namespace Forest

/-- The productions of a forest, from the last reduction to the first, derive its leaves from its
symbols, between any symbols and any terminals. -/
theorem rightmost (numbered : g.Numbered) (f : Forest g α) (left : List Symbol)
    (right : List Kind) :
    g.Rightmost (f.moves.filterMap Move.production?).reverse (left ++ α ++ right.map .terminal)
      (left ++ f.yield.map Token.symbol ++ right.map .terminal) := by
  induction f generalizing left right with
  | nil => exact .refl _
  | token t kind more ih =>
    subst kind
    have further := ih (left ++ [t.symbol]) right
    simpa [moves, yield, Token.symbol, List.filterMap_cons] using further
  | @node n rest p member head children more ihc ih =>
    subst head
    -- what stands behind the node is derived first, then the node is opened
    have behind := ih (left ++ [.nonTerminal p.head]) right
    have inside := ihc left (more.yield.map (·.kind) ++ right)
    have terminals : (more.yield.map (·.kind) ++ right).map Symbol.terminal =
        more.yield.map Token.symbol ++ right.map .terminal := by
      simp [Token.symbol, Function.comp_def]
    rw [terminals] at inside
    have opened : g.Rightmost (p.index :: (children.moves.filterMap Move.production?).reverse)
        (left ++ .nonTerminal p.head :: (more.yield.map Token.symbol ++ right.map .terminal))
        (left ++ children.yield.map Token.symbol ++
          (more.yield.map Token.symbol ++ right.map .terminal)) := by
      rw [← terminals] at inside ⊢
      exact .apply (numbered.production?_index member) inside
    have numbers : ((node p member rfl children more).moves.filterMap Move.production?).reverse =
        (more.moves.filterMap Move.production?).reverse ++
          p.index :: (children.moves.filterMap Move.production?).reverse := by
      simp [moves]
    rw [numbers, yield]
    refine Rightmost.trans ?_ (by simpa using opened)
    simpa using behind

end Forest

theorem Rooted.unended {root : Production} {X : Symbol} (rooted : g.Rooted root X)
    (unended : ∀ p ∈ g.productions, .terminal .endOfInput ∉ p.body) (f : Forest g [X]) :
    ∀ t ∈ f.yield, t.kind ≠ .endOfInput := by
  intro t ht ended
  have nowhere : ∀ p ∈ g.productions, t.symbol ∉ p.body := by
    rw [Token.symbol, ended]
    exact unended
  rcases f.symbol_of_mem_yield ht with here | ⟨p, member, here⟩
  · exact nowhere root (List.mem_of_getElem? rooted.start) (rooted.body ▸ here)
  · exact nowhere p member here

end Grammar

def Token.kindsBeforeEnd (tokens : List Token) : List Kind :=
  (tokens.map (·.kind)).takeWhile (· ≠ .endOfInput)

theorem Token.kindsBeforeEnd_append {front : List Token} {e : Token}
    (inner : ∀ t ∈ front, t.kind ≠ .endOfInput) (ends : e.kind = .endOfInput) (rest : List Token) :
    kindsBeforeEnd (front ++ e :: rest) = front.map (·.kind) := by
  have before : ∀ k ∈ front.map (·.kind), decide (k ≠ Kind.endOfInput) = true := by
    intro k hk
    obtain ⟨t, ht, rfl⟩ := List.mem_map.mp hk
    exact decide_eq_true (inner t ht)
  rw [kindsBeforeEnd, List.map_append, List.takeWhile_append_of_pos before]
  simp [ends]

/-! ### Traces of runs -/

namespace Subscriber

open Grammar

theorem tell_trace (ms : List Move) (w : Shared) (tr : Trace) :
    (Observer.all observe).tell ms (w, [.trace tr]) =
      .ok () (w, [.trace ⟨(ms.map Event.ofMove).reverse ++ tr.past⟩]) := by
  induction ms generalizing tr with
  | nil => rfl
  | cons m ms ih =>
    have first : Observer.all observe m (w, [.trace tr]) =
        .ok () (w, [.trace ⟨.ofMove m :: tr.past⟩]) := rfl
    rw [Observer.tell_cons first, ih]
    simp

/-- What the trace of an accepted run says of its tree: the reductions, read backwards, are a
rightmost derivation of the leaves. -/
theorem rightmost_of_tell {g : Grammar} {X : Symbol} (numbered : g.Numbered) (f : Forest g [X])
    {ms : List Move} (made : f.moves = ms.map Move.erase) {q : Nat} {w : Shared}
    {s : Shared × List Subscriber}
    (told : (Observer.all observe).tell (ms ++ [.accept q]) (w, [.trace .empty]) = .ok () s) :
    ∃ tr : Trace, s = (w, [.trace tr]) ∧
      g.Rightmost tr.reductions.reverse [X] (f.yield.map Token.symbol) := by
  rw [tell_trace] at told
  refine ⟨_, (EStateM.Result.ok.inj told).2.symm, ?_⟩
  have reductions : (⟨((ms ++ [Move.accept q]).map Event.ofMove).reverse ++ Trace.empty.past⟩ :
      Trace).reductions = f.moves.filterMap Move.production? := by
    simp [Trace.reductions, Trace.events, Trace.empty, made, List.filterMap_map]
  rw [reductions]
  simpa using f.rightmost numbered [] []

/-- The run over the table built for a grammar, with a trace as its only subscriber. For a grammar
in which neither the head of the start rule nor the end of input is in a body, a run that accepts
has met the end of input, behind a string that the start rule's symbol derives, and its reductions
read backwards are a rightmost derivation of the string; and it accepts whenever there is such a
string. -/
theorem follow_built {rules : List (NonTerminal × List Symbol)} {root : Production} {t : Table}
    (start : (ofRules rules).start? = some root)
    (fresh : ∀ p ∈ (ofRules rules).productions, .nonTerminal root.head ∉ p.body)
    (unended : ∀ p ∈ (ofRules rules).productions, .terminal .endOfInput ∉ p.body)
    (built : Table.build (ofRules rules) = .ok t) :
    ∃ X, root.body = [X] ∧ ∀ (tokens : List Token) (w : Shared),
      let word := (Token.kindsBeforeEnd tokens).map Symbol.terminal
      (∀ s, follow t.control tokens (w, [.trace .empty]) = .ok () s →
        t.control.Returns (Observer.all observe) tokens (w, [.trace .empty]) (.ok () s)) ∧
      (∀ s, t.control.Returns (Observer.all observe) tokens (w, [.trace .empty]) (.ok () s) →
        .endOfInput ∈ tokens.map (·.kind) ∧ (ofRules rules).Derives [X] word ∧
          ∃ tr : Trace, s = (w, [.trace tr]) ∧
            (ofRules rules).Rightmost tr.reductions.reverse [X] word) ∧
      (.endOfInput ∈ tokens.map (·.kind) → (ofRules rules).Derives [X] word →
        ∃ s, t.control.Returns (Observer.all observe) tokens (w, [.trace .empty]) (.ok () s) ∧
          (follow t.control tokens (w, [.trace .empty]) = .ok () s ∨
            follow t.control tokens (w, [.trace .empty]) =
              .error (.stepLimit (Control.stepBudget tokens)) (w, [.trace .empty]))) := by
  obtain ⟨p, starts, single⟩ := (Table.build_cases built).2.2.1
  obtain rfl : p = root := Option.some.inj (starts.symm.trans start)
  obtain ⟨X, body⟩ := List.length_eq_one_iff.mp single
  have numbered := numbered_ofRules rules
  have rooted : (ofRules rules).Rooted p X := ⟨numbered, start, body, fresh⟩
  have realizes := Table.realizes_of_build built numbered
  have terminals (u : List Token) : (u.map (·.kind)).map Symbol.terminal = u.map Token.symbol := by
    simp [Token.symbol, Function.comp_def]
  refine ⟨X, body, ?_⟩
  intro tokens w word
  refine ⟨fun s => Control.returns_of_run, ?_, ?_⟩
  · intro s returned
    obtain ⟨f, e, rest, ms, q, ends, rfl, made, told⟩ := returned.exists_forest rooted realizes
    have leaves : word = f.yield.map Token.symbol := by
      simp only [word, Token.kindsBeforeEnd_append (rooted.unended unended f) ends, terminals]
    rw [leaves]
    exact ⟨by simp [ends], f.derives, rightmost_of_tell numbered f made told⟩
  · intro ended derived
    obtain ⟨front, back, split, inner⟩ := List.eq_append_cons_of_mem ended
    obtain ⟨u, v, rfl, rfl, behind⟩ := List.map_eq_append_iff.mp split
    obtain ⟨e, rest, rfl, ends, rfl⟩ := List.map_eq_cons_iff.mp behind
    have before : ∀ a ∈ u, a.kind ≠ .endOfInput := by
      intro a ha ended
      exact inner (ended ▸ List.mem_map_of_mem ha)
    simp only [word, Token.kindsBeforeEnd_append before ends, terminals] at derived
    obtain ⟨f, rfl⟩ := derives_iff_exists_forest.mp derived
    obtain ⟨ms, c, q, steps, accepts, -⟩ := accepted_of_forest rooted realizes f ends rest
    have returned : t.control.Returns (Observer.all observe) (f.yield ++ e :: rest)
        (w, [.trace .empty]) _ :=
      ⟨ms.length + 1, Control.runFor_of_accepted steps accepts (tell_trace _ w .empty)
        (Nat.lt_succ_self _)⟩
    exact ⟨_, returned, Control.run_of_returns returned⟩

/-- Left recursion that ends with nothing, beside a rule that is neither reached nor productive. -/
theorem follow_built_vanishing :
    let g := ofRules
      [(.start, [.nonTerminal .statementList]),
        (.statementList, [.nonTerminal .statementList, .terminal .intWord]), (.statementList, []),
        (.factor, [.nonTerminal .term, .terminal .plus])]
    let tokens : List Token :=
      [⟨.intWord, "int", 1, 1⟩, ⟨.intWord, "int", 1, 5⟩, ⟨.endOfInput, "", 1, 8⟩]
    ∃ root t, g.start? = some root ∧
      (∀ p ∈ g.productions, .nonTerminal root.head ∉ p.body) ∧
      (∀ p ∈ g.productions, .terminal .endOfInput ∉ p.body) ∧ Table.build g = .ok t ∧
      ∀ w : Shared, ∃ tr : Trace,
        t.control.Returns (Observer.all observe) tokens (w, [.trace .empty])
          (.ok () (w, [.trace tr])) ∧
        g.Rightmost tr.reductions.reverse [.nonTerminal .statementList]
          [.terminal .intWord, .terminal .intWord] := by
  intro g tokens
  obtain ⟨t, built⟩ : ∃ t, Table.build g = .ok t := exists_of_isOk (by decide +kernel)
  have start : g.start? = some ⟨0, .start, [.nonTerminal .statementList]⟩ := rfl
  have fresh : ∀ p ∈ g.productions, .nonTerminal .start ∉ p.body := by decide
  have unended : ∀ p ∈ g.productions, .terminal .endOfInput ∉ p.body := by decide
  refine ⟨_, t, start, fresh, unended, built, ?_⟩
  intro w
  obtain ⟨X, body, runs⟩ := follow_built start fresh unended built
  obtain rfl : .nonTerminal .statementList = X := by simpa using body
  obtain ⟨-, sound, complete⟩ := runs tokens w
  have derived : g.Derives [.nonTerminal .statementList] [.terminal .intWord, .terminal .intWord] :=
    (Derives.apply (p := ⟨1, .statementList, [.nonTerminal .statementList, .terminal .intWord]⟩)
      (by decide) [] []).trans <|
    (Derives.apply (p := ⟨1, .statementList, [.nonTerminal .statementList, .terminal .intWord]⟩)
      (by decide) [] [.terminal .intWord]).trans
    (Derives.apply (p := ⟨2, .statementList, []⟩) (by decide) []
      [.terminal .intWord, .terminal .intWord])
  obtain ⟨s, returned, -⟩ := complete (by decide) derived
  obtain ⟨-, -, tr, rfl, rightmost⟩ := sound s returned
  exact ⟨tr, returned, rightmost⟩

end Subscriber

end Straightline
