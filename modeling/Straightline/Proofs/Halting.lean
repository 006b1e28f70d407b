import Mathlib.Algebra.Order.BigOperators.Group.List
import Mathlib.Algebra.Order.Group.Nat
import Straightline.Proofs.ItemAutomaton
import Straightline.Proofs.Stacks

/-!
# Runs over built tables end

A run does not consume a token when it reduces, and conflicts are all that keeps a grammar from
having a table. When every non-terminal that the start rule leads to derives some tokens, runs over
the table end for any tokens (`Subscriber.returns_of_fertile`). Without that they may not: in front
of a non-terminal that derives no tokens, one that vanishes can be put on the stack for ever
(`Subscriber.not_returns_of_barren`).

What a run has on its stack can be carried on to a sentence, which the table accepts. Before it
shifts the first token of the continuation, the run over that sentence has made all the reductions
on the stack. How many it makes by then depends on that token alone, and there are as many tokens to
choose from as there are kinds.
-/
namespace Straightline

/-! ### Runs that halt -/

namespace Control

variable {t : Control} {c c' d : Configuration} {ms ns : List Move} {m : Move}

/-- The steps from a configuration come to an end. -/
def Halts (t : Control) (c : Configuration) : Prop :=
  ∃ ms c', t.Steps ms c c' ∧ ∀ m d, t.step c' ≠ .next m d

theorem Steps.split (h : t.Steps (ms ++ ns) c c') : ∃ d, t.Steps ms c d ∧ t.Steps ns d c' := by
  induction ms generalizing c with
  | nil => exact ⟨c, .refl c, h⟩
  | cons m ms ih =>
    cases h with
    | next first further =>
      obtain ⟨d, steps, steps'⟩ := ih further
      exact ⟨d, .next first steps, steps'⟩

theorem Steps.length_le (h : t.Steps ms c d) (h' : t.Steps ns c c')
    (halts : ∀ m d, t.step c' ≠ .next m d) : ms.length ≤ ns.length := by
  induction h generalizing ns with
  | refl => exact Nat.zero_le _
  | next first _ ih =>
    cases h' with
    | refl => exact absurd first (halts _ _)
    | next first' further =>
      cases first.symm.trans first'
      exact Nat.succ_le_succ (ih further)

theorem Halts.of_bounded {bound : Nat} (bounded : ∀ ms d, t.Steps ms c d → ms.length ≤ bound) :
    t.Halts c := by
  induction bound generalizing c with
  | zero =>
    refine ⟨[], c, .refl c, ?_⟩
    intro m d first
    have := bounded [m] d (.next first (.refl d))
    simp at this
  | succ bound ih =>
    cases first : t.step c with
    | accepted q => exact ⟨[], c, .refl c, by simp [first]⟩
    | failed e => exact ⟨[], c, .refl c, by simp [first]⟩
    | next m d =>
      have shorter : ∀ ns d', t.Steps ns d d' → ns.length ≤ bound := by
        intro ns d' steps
        have := bounded (m :: ns) d' (.next first steps)
        simpa using this
      obtain ⟨ns, c', steps, last⟩ := ih shorter
      exact ⟨m :: ns, c', .next first steps, last⟩

theorem Halts.of_steps (steps : t.Steps ms c d) (halts : t.Halts d) :
    ∃ ns c', t.Steps ns c c' ∧ (∀ m d, t.step c' ≠ .next m d) ∧ ms.length ≤ ns.length := by
  obtain ⟨ns, c', further, last⟩ := halts
  exact ⟨ms ++ ns, c', steps.trans further, last, by simp⟩

theorem Halts.of_first {stack : List Frame} {a : Token} {rest : List Token}
    (halts : t.Halts ⟨stack, a :: rest⟩) : t.Halts ⟨stack, [a]⟩ := by
  obtain ⟨ms, c', steps, last⟩ := halts
  generalize start : (⟨stack, a :: rest⟩ : Configuration) = c at steps
  induction steps generalizing stack with
  | refl c =>
    subst start
    refine ⟨[], _, .refl _, ?_⟩
    intro m d first
    obtain ⟨b, rest', ahead, ⟨q, acts, -⟩ | ⟨p, below, q, acts, popped, goes, -⟩⟩ :=
      step_next_cases first
    · cases ahead
      exact last _ _ (step_shift acts)
    · cases ahead
      exact last _ _ (step_reduce acts popped goes)
  | next first _ ih =>
    subst start
    obtain ⟨b, rest', ahead, ⟨q, acts, -, -⟩ | ⟨p, below, q, acts, popped, goes, rfl, -⟩⟩ :=
      step_next_cases first
    · cases ahead
      exact ⟨_, _, .next (step_shift acts) (.refl _), by simp [step]⟩
    · cases ahead
      obtain ⟨ns, d, steps, last⟩ := ih last rfl
      exact ⟨_, d, .next (step_reduce acts popped goes) steps, last⟩

/-- Steps never leave configurations that each lead to another of them. -/
theorem not_halts_of_kept {I : Configuration → Prop}
    (kept : ∀ c, I c → ∃ m d, t.step c = .next m d ∧ I d) (start : I c) : ¬ t.Halts c := by
  rintro ⟨ms, c', steps, last⟩
  induction steps with
  | refl c =>
    obtain ⟨m, d, first, -⟩ := kept c start
    exact last m d first
  | next first _ ih =>
    obtain ⟨m, d, first', start⟩ := kept _ start
    cases first.symm.trans first'
    exact ih start last

variable {σ : Type} {o : Observer σ} {s : σ} {tokens : List Token}

/-- A run that tells nobody returns if and only if its steps come to an end. -/
theorem exists_returns_iff (quiet : o.Quiet s) :
    (∃ outcome, t.Returns o tokens s outcome) ↔ t.Halts ⟨[], tokens⟩ := by
  constructor
  · rintro ⟨outcome, n, ran⟩
    obtain ⟨ms, c, u, steps, told, ends⟩ := runFor_cases ran
    obtain rfl : s = u := (EStateM.Result.ok.inj ((quiet.tell ms).symm.trans told)).2
    refine ⟨ms, c, steps, ?_⟩
    rcases ends with ⟨e, fails, -⟩ | ⟨q, accepts, -⟩ | ⟨m, d, e, v, -, refused, -⟩
    · simp [fails]
    · simp [accepts]
    · cases refused.symm.trans (quiet m)
  · rintro ⟨ms, c, steps, last⟩
    cases ended : t.step c with
    | next m d => exact absurd ended (last m d)
    | accepted q =>
      exact ⟨_, _, runFor_of_accepted steps ended (quiet.tell _) (Nat.lt_succ_self _)⟩
    | failed e => exact ⟨_, _, runFor_of_failed steps ended (quiet.tell _) (Nat.lt_succ_self _)⟩

end Control

/-! ### Shifted tokens -/

def Kind.token (k : Kind) : Token :=
  ⟨k, "", 0, 0⟩

namespace Move

def token? : Move → Option Token
  | shift _ a => some a
  | _ => none

@[simp] theorem token?_shift (q : Nat) (a : Token) : (shift q a).token? = some a := rfl

@[simp] theorem token?_reduce (q : Nat) (p : Production) : (reduce q p).token? = none := rfl

@[simp] theorem token?_erase (m : Move) : m.erase.token? = m.token? := by
  cases m <;> rfl

end Move

theorem Control.Steps.input_eq {t : Control} {c c' : Configuration} {ms : List Move}
    (h : t.Steps ms c c') : c.input = ms.filterMap Move.token? ++ c'.input := by
  induction h with
  | refl => rfl
  | next first _ ih =>
    obtain ⟨a, rest, ahead, ⟨q, -, rfl, rfl⟩ | ⟨p, below, q, -, -, -, rfl, rfl⟩⟩ :=
      Control.step_next_cases first
    · rw [ahead, show rest = _ from ih]
      rfl
    · exact ih

namespace Grammar

variable {g : Grammar} {root : Production} {i : Item} {α β γ : List Symbol}

theorem Forest.filterMap_moves (f : Forest g α) : f.moves.filterMap Move.token? = f.yield := by
  induction f with
  | nil => rfl
  | token a kind more ih => simp [moves, yield, ih]
  | node p member head children more ihc ih =>
    simp [moves, yield, ihc, ih, List.filterMap_cons]

/-! ### Sentences from what is on a stack -/

theorem Reaches.derives (first : g.start? = some root) (h : g.Reaches γ i) :
    ∃ δ η, γ = δ ++ i.production.body.take i.dot ∧
      g.Derives root.body (δ ++ i.production.body ++ η) := by
  induction h with
  | start start =>
    cases start.symm.trans first
    exact ⟨[], [], rfl, by simpa using Derives.refl root.body⟩
  | @expand γ i p earlier next member ih =>
    obtain ⟨δ, η, rfl, derived⟩ := ih
    refine ⟨_, i.production.body.drop (i.dot + 1) ++ η, (List.append_nil _).symm, ?_⟩
    have body := (List.take_append_drop i.dot i.production.body).symm
    rw [drop_of_next? next] at body
    have opened := Derives.apply member (δ ++ i.production.body.take i.dot)
      (i.production.body.drop (i.dot + 1) ++ η)
    refine derived.trans ?_
    nth_rewrite 1 [body]
    simpa using opened
  | @advance γ i X earlier next ih =>
    obtain ⟨δ, η, rfl, derived⟩ := ih
    refine ⟨δ, η, ?_, derived⟩
    rw [List.append_assoc, Item.advance, List.take_add_one,
      show i.production.body[i.dot]? = some X from next]
    rfl

theorem exists_derives_of_mem_after (first : g.start? = some root) (member : i ∈ g.after γ) :
    ∃ η, g.Derives root.body (γ ++ η) := by
  obtain ⟨δ, η, rfl, derived⟩ := (mem_after_iff.mp member).derives first
  refine ⟨i.production.body.drop i.dot ++ η, ?_⟩
  rw [List.append_assoc, ← List.append_assoc (i.production.body.take i.dot), List.take_append_drop,
    ← List.append_assoc]
  exact derived

/-- A grammar in which every non-terminal of a string that the start rule's body derives can be
derived into terminals. -/
def Fertile (g : Grammar) (root : Production) : Prop :=
  ∀ (n : NonTerminal) (α β : List Symbol), g.Derives root.body (α ++ .nonTerminal n :: β) →
    ∃ word, g.Generates n word

theorem Derives.subset_of_closed {symbols : List Symbol}
    (closed : ∀ p ∈ g.productions, .nonTerminal p.head ∈ symbols → ∀ X ∈ p.body, X ∈ symbols)
    (start : ∀ X ∈ α, X ∈ symbols) (h : g.Derives α β) : ∀ X ∈ β, X ∈ symbols := by
  induction h with
  | refl => exact start
  | tail _ step ih =>
    cases step with
    | @apply p member left right =>
      have body := closed p member (ih _ (by simp))
      intro X hX
      rw [List.append_assoc, List.mem_append, List.mem_append] at hX
      rcases hX with hX | hX | hX
      · exact ih X (by simp [hX])
      · exact body X hX
      · exact ih X (by simp [hX])

theorem exists_forest_of_generates
    (fertile : ∀ n, .nonTerminal n ∈ α → ∃ word, g.Generates n word) :
    ∃ f : Forest g α, ∀ a ∈ f.yield, a = a.kind.token := by
  induction α with
  | nil => exact ⟨.nil, by simp [Forest.yield]⟩
  | cons X α ih =>
    obtain ⟨more, plain⟩ := ih fun n member => fertile n (List.mem_cons_of_mem X member)
    cases X with
    | terminal k =>
      refine ⟨.token k.token rfl more, ?_⟩
      intro a member
      rcases List.mem_cons.mp member with rfl | member
      · rfl
      · exact plain a member
    | nonTerminal n =>
      obtain ⟨word, generated⟩ := fertile n List.mem_cons_self
      have kinds : word = (word.map Kind.token).map (·.kind) := by
        simp [Kind.token, Function.comp_def]
      rw [kinds] at generated
      obtain ⟨f, leaves⟩ := generates_iff_exists_forest.mp generated
      refine ⟨f.append more, ?_⟩
      intro a member
      rw [Forest.yield_append, leaves] at member
      rcases List.mem_append.mp member with member | member
      · obtain ⟨k, -, rfl⟩ := List.mem_map.mp member
        rfl
      · exact plain a member

theorem Derives.exists_forest (h : g.Derives α β) (f : Forest g β) :
    ∃ f' : Forest g α, f'.yield = f.yield ∧ f.moves.Sublist f'.moves := by
  induction h using Relation.ReflTransGen.head_induction_on with
  | refl => exact ⟨f, rfl, List.Sublist.refl _⟩
  | head step _ ih =>
    obtain ⟨f', leaves, sub⟩ := ih
    cases step with
    | @apply p member left right =>
      obtain ⟨ab, c, rfl⟩ := f'.exists_append
      obtain ⟨a, b, rfl⟩ := ab.exists_append
      refine ⟨a.append (.node p member rfl b c), ?_, sub.trans ?_⟩
      · rw [← leaves]
        simp [Forest.yield]
      · simp [Forest.moves_append, Forest.moves]

end Grammar

open Grammar

variable {g : Grammar} {t : Control} {root : Production} {X : Symbol} {tokens : List Token}
  {ms : List Move} {c : Configuration}

/-- What a run has on its stack starts the tree of a sentence. The moves of that tree up to the
first token that the run has not shifted are no fewer than the run's. -/
theorem Parsed.exists_sentence (rooted : g.Rooted root X) (fertile : g.Fertile root)
    (parsed : Parsed g tokens ms c) :
    ∃ (f : Forest g [X]) (shifted ahead : List Token) (before behind : List Move),
      tokens = shifted ++ c.input ∧ f.yield = shifted ++ ahead ∧ f.moves = before ++ behind ∧
        before.filterMap Move.token? = shifted ∧ ms.length ≤ before.length ∧
        ∀ a ∈ ahead, a = a.kind.token := by
  obtain ⟨path, α, f, rfl, leaves, made⟩ := parsed
  obtain ⟨i, member⟩ := path.exists_mem rooted.start
  obtain ⟨η, derived⟩ := exists_derives_of_mem_after rooted.start member
  have generated : ∀ n, .nonTerminal n ∈ η → ∃ word, g.Generates n word := by
    intro n inside
    obtain ⟨front, back, rfl⟩ := List.append_of_mem inside
    exact fertile n (symbolsOf c.stack ++ front) back (by simpa using derived)
  obtain ⟨f', plain⟩ := exists_forest_of_generates generated
  rw [rooted.body] at derived
  obtain ⟨tree, yields, sub⟩ := derived.exists_forest (f.append f')
  rw [Forest.moves_append] at sub
  rw [Forest.yield_append] at yields
  obtain ⟨before, behind, split, front, back⟩ := List.append_sublist_iff.mp sub
  -- both parts shift at least their own leaves, and together no more than all of them
  have shifts := front.filterMap Move.token?
  have shifts' := back.filterMap Move.token?
  have all := tree.filterMap_moves
  rw [split, List.filterMap_append, yields] at all
  rw [f.filterMap_moves] at shifts
  rw [f'.filterMap_moves] at shifts'
  have lengths := congrArg List.length all
  rw [List.length_append, List.length_append] at lengths
  have exact : (before.filterMap Move.token?).length = f.yield.length := by
    have := shifts.length_le
    have := shifts'.length_le
    omega
  refine ⟨tree, f.yield, f'.yield, before, behind, leaves.symm, yields, split,
    (shifts.eq_of_length exact.symm).symm, ?_, plain⟩
  have longer := front.length_le
  rw [made, List.length_map] at longer
  exact longer

/-- The run over the tokens that a run has shifted, with some token behind them, comes to an end,
and not before it has made as many moves. -/
theorem Parsed.exists_halt (rooted : g.Rooted root X) (realizes : t.Realizes g)
    (fertile : g.Fertile root) (parsed : Parsed g tokens ms c) :
    ∃ (shifted : List Token) (k : Kind) (ns : List Move) (c' : Configuration),
      tokens = shifted ++ c.input ∧ t.Steps ns ⟨[], shifted ++ [k.token]⟩ c' ∧
        (∀ m d, t.step c' ≠ .next m d) ∧ ms.length ≤ ns.length := by
  obtain ⟨f, shifted, ahead, before, behind, consumed, yields, split, shifts, longer, plain⟩ :=
    parsed.exists_sentence rooted fertile
  obtain ⟨all, d, q, steps, accepts, made⟩ :=
    accepted_of_forest rooted realizes f (e := Kind.endOfInput.token) rfl []
  rw [split] at made
  obtain ⟨first, further, rfl, rfl, -⟩ := List.map_eq_append_iff.mp made.symm
  obtain ⟨c', steps, steps'⟩ := steps.split
  obtain ⟨a, rest, next⟩ : ∃ a rest, ahead ++ [Kind.endOfInput.token] = a :: rest :=
    List.exists_cons_of_ne_nil (by simp)
  have known : a = a.kind.token := by
    have member : a ∈ ahead ++ [Kind.endOfInput.token] := next ▸ List.mem_cons_self
    rcases List.mem_append.mp member with member | member
    · exact plain a member
    · rw [List.mem_singleton.mp member]
      rfl
  have moved : first.filterMap Move.token? = shifted := by
    simpa [List.filterMap_map, Function.comp_def] using shifts
  have eaten := steps.input_eq
  rw [moved, yields, List.append_assoc, next] at eaten
  have input : a :: rest = c'.input := List.append_cancel_left eaten
  obtain ⟨u, same, again⟩ := steps.replace
  obtain rfl : shifted = u := by
    rw [yields, List.append_assoc, next, input] at same
    exact List.append_cancel_right same
  have halts : t.Halts ⟨c'.stack, a :: rest⟩ := by
    rw [input]
    exact ⟨further, d, steps', by simp [accepts]⟩
  obtain ⟨ns, c'', ended, last, enough⟩ :=
    Control.Halts.of_steps (again [a] (by rw [← input]; rfl)) halts.of_first
  rw [known] at ended
  rw [List.length_map] at longer
  exact ⟨shifted, a.kind, ns, c'', consumed, ended, last, longer.trans enough⟩

theorem exists_bound (rooted : g.Rooted root X) (realizes : t.Realizes g)
    (fertile : g.Fertile root) (tokens : List Token) :
    ∃ bound, ∀ ms c, t.Steps ms ⟨[], tokens⟩ c → ms.length ≤ bound := by
  -- runs that end are unique, so each choice of shifted tokens and a token behind them has a bound
  have each : ∀ (n : Nat) (k : Kind), ∃ bound, ∀ ns c',
      t.Steps ns ⟨[], tokens.take n ++ [k.token]⟩ c' → (∀ m d, t.step c' ≠ .next m d) →
        ns.length ≤ bound := by
    intro n k
    by_cases ends : t.Halts ⟨[], tokens.take n ++ [k.token]⟩
    · obtain ⟨ms, c, steps, last⟩ := ends
      exact ⟨ms.length, fun ns c' steps' _ => steps'.length_le steps last⟩
    · exact ⟨0, fun ns c' steps last => absurd ⟨ns, c', steps, last⟩ ends⟩
  choose bound bounds using each
  let choices := (List.range (tokens.length + 1)).flatMap fun n => Kind.all.map (bound n)
  refine ⟨choices.sum, ?_⟩
  intro ms c steps
  have parsed := (Parsed.initial g tokens).run rooted.numbered realizes steps
  obtain ⟨shifted, k, ns, c', consumed, ended, last, longer⟩ :=
    parsed.exists_halt rooted realizes fertile
  have taken : shifted = tokens.take shifted.length := by rw [consumed]; simp
  have short : shifted.length < tokens.length + 1 := by
    rw [consumed, List.length_append]
    omega
  have chosen : bound shifted.length k ∈ choices :=
    List.mem_flatMap.mpr ⟨_, List.mem_range.mpr short, List.mem_map_of_mem (Kind.mem_all k)⟩
  rw [taken] at ended
  calc ms.length ≤ ns.length := by simpa using longer
    _ ≤ bound shifted.length k := bounds shifted.length k ns c' ended last
    _ ≤ choices.sum := List.le_sum_of_mem chosen

namespace Subscriber

/-- A run without observers over the table of a grammar ends, whatever its tokens are, when the head
of the start rule is in no body and every non-terminal that its body leads to derives some
tokens. -/
theorem returns_of_fertile {rules : List (NonTerminal × List Symbol)} {root : Production}
    {t : Table} (start : (ofRules rules).start? = some root)
    (fresh : ∀ p ∈ (ofRules rules).productions, .nonTerminal root.head ∉ p.body)
    (fertile : (ofRules rules).Fertile root) (built : Table.build (ofRules rules) = .ok t)
    (tokens : List Token) (w : Shared) :
    ∃ outcome, t.control.Returns (Observer.all observe) tokens (w, []) outcome := by
  obtain ⟨p, starts, single⟩ := (Table.build_cases built).2.2.1
  obtain rfl : p = root := Option.some.inj (starts.symm.trans start)
  obtain ⟨X, body⟩ := List.length_eq_one_iff.mp single
  have numbered := numbered_ofRules rules
  obtain ⟨bound, bounded⟩ := exists_bound ⟨numbered, start, body, fresh⟩
    (Table.realizes_of_build built numbered) fertile tokens
  rw [Control.exists_returns_iff (Observer.quiet_all observe w)]
  exact .of_bounded bounded

/-- Left recursion that ends with nothing, beside a rule that is neither reached nor productive: the
run ends also where the tokens are no sentence. -/
theorem returns_of_fertile_vanishing :
    let rules : List (NonTerminal × List Symbol) :=
      [(.start, [.nonTerminal .statementList]),
        (.statementList, [.nonTerminal .statementList, .terminal .intWord]), (.statementList, []),
        (.factor, [.nonTerminal .term, .terminal .plus])]
    let tokens : List Token := [⟨.intWord, "int", 1, 1⟩, ⟨.plus, "+", 1, 5⟩]
    ∃ root t, (ofRules rules).start? = some root ∧
      (∀ p ∈ (ofRules rules).productions, .nonTerminal root.head ∉ p.body) ∧
      (ofRules rules).Fertile root ∧ Table.build (ofRules rules) = .ok t ∧
      ∀ w : Shared, ∃ outcome,
        t.control.Returns (Observer.all observe) tokens (w, []) outcome := by
  intro rules tokens
  obtain ⟨t, built⟩ : ∃ t, Table.build (ofRules rules) = .ok t := exists_of_isOk (by decide +kernel)
  have start : (ofRules rules).start? = some ⟨0, .start, [.nonTerminal .statementList]⟩ := rfl
  have fresh : ∀ p ∈ (ofRules rules).productions, .nonTerminal .start ∉ p.body := by decide
  have fertile : (ofRules rules).Fertile ⟨0, .start, [.nonTerminal .statementList]⟩ := by
    intro n α β derived
    have reached : ∀ X ∈ α ++ .nonTerminal n :: β,
        X ∈ [Symbol.nonTerminal .statementList, .terminal .intWord] :=
      derived.subset_of_closed (by decide) (by simp)
    obtain rfl : n = .statementList := by simpa using reached (.nonTerminal n) (by simp)
    exact ⟨[], .apply (p := ⟨2, .statementList, []⟩) (by decide) [] []⟩
  exact ⟨_, t, start, fresh, fertile, built,
    returns_of_fertile start fresh fertile built tokens⟩

/-- Expressions that start with a vanishing term and never end. The literal may follow a term, so
that before a literal terms are put on the stack for ever. -/
theorem not_returns_of_barren :
    let g := ofRules
      [(.start, [.nonTerminal .expr]),
        (.expr, [.nonTerminal .term, .nonTerminal .expr, .nonTerminal .factor]), (.term, []),
        (.factor, [.nonTerminal .term, .terminal .intConst])]
    let tokens : List Token := [⟨.intConst, "1", 0, 0⟩]
    ∃ root t, g.start? = some root ∧
      (∀ p ∈ g.productions, .nonTerminal root.head ∉ p.body) ∧
      (∀ p ∈ g.productions, .terminal .endOfInput ∉ p.body) ∧ Table.build g = .ok t ∧
      ∀ w : Shared, ¬ ∃ outcome,
        t.control.Returns (Observer.all observe) tokens (w, []) outcome := by
  intro g tokens
  have cells : (do
      let t ← Table.build g
      return (t.initial, t.action 0 .intConst, t.action 2 .intConst, t.goto? 0 .term,
        t.goto? 2 .term)) =
      (Except.ok (0, .reduce ⟨2, .term, []⟩, .reduce ⟨2, .term, []⟩, some 2, some 2) :
        Except Error _) := by
    decide +kernel
  obtain ⟨t, built, looked⟩ := bind_eq_ok.mp cells
  simp only [pure, Except.pure, Except.ok.injEq, Prod.mk.injEq] at looked
  obtain ⟨initial, first, further, goes, goes'⟩ := looked
  refine ⟨_, t, rfl, by decide, by decide, built, ?_⟩
  intro w
  rw [Control.exists_returns_iff (Observer.quiet_all observe w)]
  refine Control.not_halts_of_kept (I := fun c => c.input = tokens ∧
    (t.control.state c.stack = 0 ∨ t.control.state c.stack = 2)) ?_ ⟨rfl, Or.inl initial⟩
  rintro ⟨stack, input⟩ ⟨rfl, below⟩
  have acts : t.control.action (t.control.state stack) .intConst = .reduce ⟨2, .term, []⟩ := by
    rcases below with same | same
    · exact (congrArg (t.action · .intConst) same).trans first
    · exact (congrArg (t.action · .intConst) same).trans further
  have goes : t.control.goto (t.control.state stack) .term = some 2 := by
    rcases below with same | same
    · exact (congrArg (t.goto? · .term) same).trans goes
    · exact (congrArg (t.goto? · .term) same).trans goes'
  exact ⟨_, _, Control.step_reduce acts rfl goes, rfl, Or.inr rfl⟩

end Subscriber

end Straightline
