import Straightline.Proofs.SeparateStacks
import Straightline.Proofs.StoredTables

/-!
# Loaded tables

A table that was read is faithful to its rows: what is looked up for a symbol is the last pair that
its row has for it. Since it does not dangle, a run over it stays among its states, and only a token
without an action, the lack of a token, of a goto or of symbols to reduce can end it
(`Table.read_faithful`).
-/
namespace Straightline

/-! ### Steps and errors -/

namespace Control

variable {t : Control} {c : Configuration}

/-- The errors of a step, each with its cause. -/
inductive Fails (t : Control) : Error → Prop where
  | token {q : Nat} {a : Token} : t.action q a.kind = .error → Fails t (unexpected q a)
  | ended : Fails t .unexpectedEnd
  | goto {q : Nat} {N : NonTerminal} : t.goto q N = none → Fails t (.missingGoto q N)
  | short {p : Production} {size : Nat} : size < p.body.length →
    Fails t (.invariant (.shortStack p size))

theorem fails_of_step {e : Error} (h : t.step c = .failed e) : t.Fails e := by
  unfold step at h
  split at h
  · cases h
    exact .ended
  · dsimp only at h
    split at h
    · cases h
    · rename_i p acts
      unfold reduce at h
      split at h
      · rename_i popped
        cases h
        refine .short (Nat.lt_of_not_le fun enough => ?_)
        cases popped.symm.trans (pop?_eq_some_iff.mpr ⟨enough, rfl⟩)
      · split at h
        · rename_i goes
          cases h
          exact .goto goes
        · cases h
    · cases h
    · rename_i acts
      cases h
      exact .token acts

theorem fails_of_returns {σ : Type} {o : Observer σ} {tokens : List Token} {s s' : σ} {e : Error}
    (h : t.Returns o tokens s (.error e s')) : t.Fails e ∨ ∃ m u, o m u = .error e s' := by
  obtain ⟨n, ran⟩ := h
  obtain ⟨ms, c, u, -, -, ⟨e', fails, ended⟩ | ⟨q, -, ended⟩ | ⟨m, d, e', v, -, refused, ended⟩⟩ :=
    runFor_cases ran
  · cases ended
    exact Or.inl (fails_of_step fails)
  · exact Or.inr ⟨_, u, ended.symm⟩
  · cases ended
    exact Or.inr ⟨m, u, refused⟩

end Control

/-! ### Tables that were read -/

namespace Table

variable {t : Table} {q : Nat} {k : Kind} {N : NonTerminal} {text : String}

namespace Closed

theorem names_of_cell? (closed : t.Closed) {e : Entry} (h : t.cell? q k = some e) :
    t.names e = true := by
  obtain ⟨r, here, last⟩ := cell?_eq_some_iff.mp h
  exact closed.entries r (List.mem_of_getElem? here) _ last.mem

theorem lt_of_shift (closed : t.Closed) {q' : Nat} (h : t.cell? q k = some (.shift q')) :
    q' < t.stateCount :=
  of_decide_eq_true (closed.names_of_cell? h)

theorem lt_of_goto? (closed : t.Closed) {q' : Nat} (h : t.goto? q N = some q') :
    q' < t.stateCount := by
  obtain ⟨r, here, last⟩ := goto?_eq_some_iff.mp h
  exact closed.gotos r (List.mem_of_getElem? here) _ last.mem

theorem exists_production (closed : t.Closed) {i : Nat} (h : t.cell? q k = some (.reduce i)) :
    ∃ p, t.grammar.production? i = some p ∧ p.index = i ∧ t.action q k = .reduce p := by
  have inside : i < t.grammar.productions.length := of_decide_eq_true (closed.names_of_cell? h)
  have here := List.getElem?_eq_getElem inside
  have found : t.grammar.production? i = some t.grammar.productions[i] := here
  exact ⟨_, found, closed.numbered i _ here, by simp only [action, h, found]⟩

theorem action_eq_error_iff (closed : t.Closed) : t.action q k = .error ↔ t.cell? q k = none := by
  cases cell : t.cell? q k with
  | none => simp [action, cell]
  | some e =>
    cases e with
    | shift q' => simp [action, cell]
    | reduce i =>
      obtain ⟨p, -, -, acts⟩ := closed.exists_production cell
      simp [acts]
    | accept => simp [action, cell]

theorem within (closed : t.Closed) : t.control.Within t.stateCount where
  initial := closed.initial
  shift q k q' acts := by
    have acts : t.action q k = .shift q' := acts
    cases cell : t.cell? q k with
    | none => simp [action, cell] at acts
    | some e =>
      cases e with
      | shift r =>
        simp only [action, cell] at acts
        cases acts
        exact closed.lt_of_shift cell
      | reduce i =>
        obtain ⟨p, -, -, reduces⟩ := closed.exists_production cell
        cases acts.symm.trans reduces
      | accept => simp [action, cell] at acts
  goto q N q' goes := closed.lt_of_goto? goes

end Closed

/-- All that keeps a stored table from being used: a production that is not numbered by its position,
or a number that names nothing, be it in a pair that a later one hides. -/
inductive Dangles (t : Table) : Prop where
  | production {m : Nat} {p : Production} : t.grammar.productions[m]? = some p → p.index ≠ m →
    Dangles t
  | initial : t.stateCount ≤ t.initial → Dangles t
  | shift {r : Row} {k : Kind} {q : Nat} : r ∈ t.rows → (k, .shift q) ∈ r.actions →
    t.stateCount ≤ q → Dangles t
  | reduce {r : Row} {k : Kind} {i : Nat} : r ∈ t.rows → (k, .reduce i) ∈ r.actions →
    t.grammar.productions.length ≤ i → Dangles t
  | goto {r : Row} {N : NonTerminal} {q : Nat} : r ∈ t.rows → (N, q) ∈ r.gotos →
    t.stateCount ≤ q → Dangles t

theorem not_dangles_iff : ¬ t.Dangles ↔ t.Closed := by
  constructor
  · intro sound
    refine ⟨?_, ?_, ?_, ?_⟩
    · intro m p here
      exact Decidable.byContradiction fun other => sound (.production here other)
    · exact Nat.lt_of_not_le fun lost => sound (.initial lost)
    · rintro r hr ⟨k, e⟩ ha
      cases e with
      | shift q => exact decide_eq_true (Nat.lt_of_not_le fun lost => sound (.shift hr ha lost))
      | reduce i => exact decide_eq_true (Nat.lt_of_not_le fun lost => sound (.reduce hr ha lost))
      | accept => rfl
    · intro r hr a ha
      exact Nat.lt_of_not_le fun lost => sound (.goto hr ha lost)
  · intro closed dangles
    cases dangles with
    | production here other => exact other (closed.numbered _ _ here)
    | initial lost => exact Nat.not_lt.mpr lost closed.initial
    | shift hr ha lost => exact Nat.not_lt.mpr lost (of_decide_eq_true (closed.entries _ hr _ ha))
    | reduce hr ha lost => exact Nat.not_lt.mpr lost (of_decide_eq_true (closed.entries _ hr _ ha))
    | goto hr ha lost => exact Nat.not_lt.mpr lost (closed.gotos _ hr _ ha)

/-- A text that holds a table is rejected exactly when the table dangles. -/
theorem exists_read_eq_error_iff (held : (Json.parse? text).bind ofJson? = some t) :
    (∃ e, read text = .error e) ↔ t.Dangles := by
  rw [← not_iff_not, not_dangles_iff]
  constructor
  · intro accepted
    cases loaded : read text with
    | error e => exact absurd ⟨e, loaded⟩ accepted
    | ok u =>
      obtain ⟨held', closed⟩ := read_eq_ok_iff.mp loaded
      cases held.symm.trans held'
      exact closed
  · rintro closed ⟨e, rejected⟩
    cases rejected.symm.trans (read_eq_ok_iff.mpr ⟨held, closed⟩)

/-- Tables that are read are faithful to their rows and closed. A lookup gives the last pair of a
row for a symbol, as does a map that the pairs are inserted into in their order; it names a state or
a production that is there, so that an action is an error only where no pair is stored. Every run
stays among the states of the table, its states and its symbols as stacks of one height, and ends in
an error only by a step that fails for one of four reasons, or by a move that an observer refuses. A
text that holds a table is rejected exactly when something in it dangles. -/
theorem read_faithful :
    (∀ (text : String) (t : Table), read text = .ok t →
      ((∀ q k e, t.cell? q k = some e ↔ ∃ r, t.rows[q]? = some r ∧ LastPair r.actions k e) ∧
        (∀ q k, t.cell? q k = none ↔ ∀ r, t.rows[q]? = some r → ∀ a ∈ r.actions, a.1 ≠ k) ∧
        (∀ q N q', t.goto? q N = some q' ↔ ∃ r, t.rows[q]? = some r ∧ LastPair r.gotos N q') ∧
        (∀ q N, t.goto? q N = none ↔ ∀ r, t.rows[q]? = some r → ∀ a ∈ r.gotos, a.1 ≠ N) ∧
        (∀ q k, (filled (t.rows.map (·.actions)))[(q, k)]? = t.cell? q k) ∧
        ∀ q N, (filled (t.rows.map (·.gotos)))[(q, N)]? = t.goto? q N) ∧
      (t.initial < t.stateCount ∧
        (∀ q k q', t.cell? q k = some (.shift q') → q' < t.stateCount) ∧
        (∀ q k i, t.cell? q k = some (.reduce i) →
          ∃ p, t.grammar.production? i = some p ∧ p.index = i ∧ t.action q k = .reduce p) ∧
        (∀ q N q', t.goto? q N = some q' → q' < t.stateCount) ∧
        ∀ q k, t.action q k = .error ↔ t.cell? q k = none) ∧
      (∀ (tokens : List Token) (s : Stacks),
        (Stacks.Reaches t.control (.start t.control tokens) s ↔
          ∃ ms c, t.control.Steps ms ⟨[], tokens⟩ c ∧ s = .ofConfiguration t.control c) ∧
        (Stacks.Reaches t.control (.start t.control tokens) s →
          (∀ q ∈ s.states, q < t.stateCount) ∧ s.states.length = s.symbols.length)) ∧
      ∀ {σ : Type} (o : Observer σ) (tokens : List Token) (s s' : σ) (e : Error),
        t.control.Returns o tokens s (.error e s') →
          t.control.Fails e ∨ ∃ m u, o m u = .error e s') ∧
    ∀ (text : String) (t : Table), (Json.parse? text).bind ofJson? = some t →
      ((∃ e, read text = .error e) ↔ t.Dangles) := by
  refine ⟨fun text t loaded => ?_, fun text t held => exists_read_eq_error_iff held⟩
  have closed := (read_eq_ok_iff.mp loaded).2
  refine ⟨⟨fun q k e => cell?_eq_some_iff, fun q k => cell?_eq_none_iff,
    fun q N q' => goto?_eq_some_iff, fun q N => goto?_eq_none_iff, t.getElem?_filled_actions,
    t.getElem?_filled_gotos⟩, ⟨closed.initial, fun q k q' => closed.lt_of_shift,
    fun q k i => closed.exists_production, fun q N q' => closed.lt_of_goto?,
    fun q k => closed.action_eq_error_iff⟩, ?_, ?_⟩
  · intro tokens s
    exact ⟨Stacks.reaches_iff, fun reached => ⟨reached.below closed.within, reached.height⟩⟩
  · intro σ o tokens s s' e returned
    exact Control.fails_of_returns returned

/-- A text with a pair that another hides, and one whose hidden pair dangles. Over the first, a run
shifts without end, as long as there are tokens. -/
theorem read_faithful_hidden :
    let text := "[[[[0,\"Start\",[\x7b\"Terminal\":\"Plus\"\x7d]]]],0," ++
      "[[[[\"Plus\",\"Accept\"],[\"Plus\",\x7b\"Shift\":0\x7d]],[]]]]"
    let lost := "[[[[0,\"Start\",[\x7b\"Terminal\":\"Plus\"\x7d]]]],0," ++
      "[[[[\"Plus\",\x7b\"Shift\":1\x7d],[\"Plus\",\x7b\"Shift\":0\x7d]],[]]]]"
    let g : Grammar := ⟨[⟨0, .start, [.terminal .plus]⟩]⟩
    let t : Table := ⟨g, 0, [⟨[(.plus, .accept), (.plus, .shift 0)], []⟩]⟩
    let u : Table := ⟨g, 0, [⟨[(.plus, .shift 1), (.plus, .shift 0)], []⟩]⟩
    let plus : Token := ⟨.plus, "+", 1, 1⟩
    read text = .ok t ∧ t.cell? 0 .plus = some (.shift 0) ∧ t.action 0 .minus = .error ∧
      (∃ s, Stacks.Reaches t.control (.start t.control [plus]) s ∧
        s = ⟨[0, 0], [.token plus, .token ⟨.endOfInput, "", 0, 0⟩], []⟩ ∧
        s.states.length = s.symbols.length) ∧
      t.control.Returns .silent [plus, plus] () (.error .unexpectedEnd ()) ∧
      t.control.Fails .unexpectedEnd ∧
      (Json.parse? lost).bind ofJson? = some u ∧ u.Dangles ∧ ∃ e, read lost = .error e := by
  intro text lost g t u plus
  have loaded : read text = .ok t := by decide +kernel
  have held : (Json.parse? lost).bind ofJson? = some u := by decide +kernel
  obtain ⟨⟨cell, noCell, -⟩, ⟨-, -, -, -, error⟩, runs, fails⟩ := read_faithful.1 text t loaded
  have dangles : u.Dangles :=
    .shift (k := .plus) (q := 1) List.mem_cons_self List.mem_cons_self (by decide)
  have reached : Stacks.Reaches t.control (.start t.control [plus])
      ⟨[0, 0], [.token plus, .token ⟨.endOfInput, "", 0, 0⟩], []⟩ :=
    ((runs [plus] _).1).mpr ⟨_, _, .next rfl (.refl _), rfl⟩
  have returned : t.control.Returns .silent [plus, plus] () (.error .unexpectedEnd ()) := ⟨3, rfl⟩
  have failed : t.control.Fails .unexpectedEnd := by
    rcases fails .silent [plus, plus] () () _ returned with failed | ⟨m, v, refused⟩
    · exact failed
    · cases refused
  refine ⟨loaded, ?_, ?_, ⟨_, reached, rfl, ((runs [plus] _).2 reached).2⟩, returned, failed, held,
    dangles, (read_faithful.2 lost u held).mpr dangles⟩
  · exact (cell 0 .plus (.shift 0)).mpr ⟨_, rfl, [(.plus, .accept)], [], rfl, by simp⟩
  · rw [error, noCell]
    rintro r ⟨⟩
    decide

end Table

end Straightline
