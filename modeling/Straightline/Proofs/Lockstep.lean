import Straightline.Compilation
import Straightline.Proofs.Reference
import Straightline.Proofs.SeparateStacks
import Straightline.Proofs.Translation

/-!
# Observers in step with the parser

The observers of a compilation keep stacks of their own. At every step of a run these hold the
symbols of the parse stack, the emitting observer has a value just where an operand is to be read,
and both answer the step's move (`Analysis.Follows.observe`). What the typing observer does to the
symbol table and to its findings is one of four things (`Typing.Reports`). The run of a compilation
is the one that its observers follow as subscribers (`Analysis.follow_eq_run`). As subscribers, in
any order, they are in step all along a run, and have no part in how it ends
(`Subscriber.follow_inStep`).
-/
namespace Straightline

open Grammar

/-! ### Productions by rule -/

namespace Rule

def production : Rule → Production
  | program => ⟨1, .program, [.nonTerminal .statementList]⟩
  | moreStatements =>
    ⟨2, .statementList,
      [.nonTerminal .statement, .terminal .semicolon, .nonTerminal .statementList]⟩
  | lastStatement => ⟨3, .statementList, [.nonTerminal .statement, .terminal .semicolon]⟩
  | declaration => ⟨4, .statement, [.nonTerminal .declarator, .terminal .identifier]⟩
  | intType => ⟨5, .declarator, [.terminal .intWord]⟩
  | assignment =>
    ⟨6, .statement, [.terminal .identifier, .terminal .assign, .nonTerminal .expr]⟩
  | returning => ⟨7, .statement, [.terminal .returnWord, .nonTerminal .expr]⟩
  | arithmetic op => op.production
  | exprOfTerm => ⟨10, .expr, [.nonTerminal .term]⟩
  | termOfFactor => ⟨12, .term, [.nonTerminal .factor]⟩
  | parenthesized =>
    ⟨13, .factor, [.terminal .leftParen, .nonTerminal .expr, .terminal .rightParen]⟩
  | name => ⟨14, .factor, [.terminal .identifier]⟩
  | literal => ⟨15, .factor, [.terminal .intConst]⟩

theorem exists_production {p : Production} (member : p ∈ reference.productions)
    (other : p.index ≠ 0) : ∃ r : Rule, r.production = p := by
  have known : ∀ p ∈ reference.productions, p.index ≠ 0 →
      (ofIndex? p.index).map production = some p := by decide
  obtain ⟨r, -, same⟩ := Option.map_eq_some_iff.mp (known p member other)
  exact ⟨r, same⟩

end Rule

/-! ### Stacks side by side -/

namespace AttributeStack

variable {α : Type} {s : AttributeStack α} {stack frames below : List Frame}
  {top : List (Attributed α)} {X Y Z : Symbol}

/-- A stack of attributes for the symbols of a parse stack. -/
def Mirrors (s : AttributeStack α) (stack : List Frame) : Prop :=
  s.entries.map (·.symbol) = stack.map (·.symbol)

theorem Mirrors.push (h : s.Mirrors stack) (frame : Frame) (value : Option α) :
    (s.push ⟨frame.symbol, value⟩).Mirrors (frame :: stack) :=
  congrArg (frame.symbol :: ·) h

theorem Mirrors.exists_top (h : s.Mirrors (frames ++ below)) {β : List Symbol}
    (body : symbolsOf frames = β) :
    ∃ top rest, s = ⟨top ++ rest⟩ ∧ top.map (·.symbol) = frames.map (·.symbol) ∧
      top.map (·.symbol.symbol) = β.reverse ∧ Mirrors ⟨rest⟩ below := by
  obtain ⟨entries⟩ := s
  rw [Mirrors, List.map_append] at h
  obtain ⟨top, rest, rfl, first, second⟩ := List.map_eq_append_iff.mp h
  refine ⟨top, rest, rfl, first, ?_, second⟩
  have named := congrArg (List.map ParseSymbol.symbol) first
  rw [List.map_map, List.map_map] at named
  rw [← body, symbolsOf, List.reverse_reverse]
  exact named

theorem exists_one (h : top.map (·.symbol.symbol) = [X].reverse) :
    ∃ x, top = [x] ∧ x.symbol.symbol = X := by
  simpa using h

theorem exists_two (h : top.map (·.symbol.symbol) = [X, Y].reverse) :
    ∃ y x, top = [y, x] ∧ x.symbol.symbol = X ∧ y.symbol.symbol = Y := by
  obtain ⟨y, _, rfl, hy, rest⟩ := List.map_eq_cons_iff.mp h
  obtain ⟨x, rfl, hx⟩ := List.map_eq_singleton_iff.mp rest
  exact ⟨y, x, rfl, hx, hy⟩

theorem exists_three (h : top.map (·.symbol.symbol) = [X, Y, Z].reverse) :
    ∃ z y x, top = [z, y, x] ∧ x.symbol.symbol = X ∧ y.symbol.symbol = Y ∧ z.symbol.symbol = Z := by
  obtain ⟨z, _, rfl, hz, rest⟩ := List.map_eq_cons_iff.mp h
  obtain ⟨y, x, rfl, hx, hy⟩ := exists_two rest
  exact ⟨z, y, x, rfl, hx, hy, hz⟩

end AttributeStack

theorem ParseSymbol.exists_token {s : ParseSymbol} {k : Kind} (h : s.symbol = .terminal k) :
    ∃ id, s = .token id ∧ id.kind = k := by
  cases s with
  | token id => exact ⟨id, rfl, Symbol.terminal.inj h⟩
  | nonTerminal head => cases h

/-! ### The emitting observer -/

def Symbol.hasValue : Symbol → Bool
  | .terminal k => k = .identifier ∨ k = .intConst
  | .nonTerminal n => n = .expr ∨ n = .term ∨ n = .factor

/-- An entry with a value just where its symbol stands for one; that of an identifier is a
variable. -/
structure Attributed.Fits (a : Attributed Operand) : Prop where
  value : a.value.isSome = a.symbol.symbol.hasValue
  target : a.symbol.symbol = .terminal .identifier → ∃ v, a.value = some (.var v)

namespace Attributed

theorem Fits.exists_value {a : Attributed Operand} (h : a.Fits) {X : Symbol}
    (here : a.symbol.symbol = X) (has : X.hasValue = true) : ∃ s o, a = ⟨s, some o⟩ := by
  have valued := h.value
  rw [here, has] at valued
  obtain ⟨o, same⟩ := Option.isSome_iff_exists.mp valued
  obtain ⟨s, value⟩ := a
  exact ⟨s, o, congrArg _ same⟩

theorem Fits.nonTerminal {n : NonTerminal} {v : Option Operand}
    (h : v.isSome = (Symbol.nonTerminal n).hasValue) : Fits ⟨.nonTerminal n, v⟩ where
  value := h
  target := by
    intro terminal
    cases terminal

end Attributed

namespace Emitter

theorem observe_shift {a : Token}
    (readable : a.kind = .intConst → ∃ n, Decimal.read? a.lexeme = some n) (q : Nat) (u : Emitter) :
    ∃ v, observe (.shift q a) u = .ok () { u with stack := u.stack.push ⟨.token a, v⟩ } ∧
      Attributed.Fits ⟨.token a, v⟩ := by
  obtain ⟨⟨entries⟩, emitted, next⟩ := u
  by_cases identifier : a.kind = .identifier
  · refine ⟨_, observe_name ⟨a, identifier⟩, ?_, ?_⟩
    · simp [ParseSymbol.symbol, Symbol.hasValue, identifier]
    · intro _
      exact ⟨_, rfl⟩
  · by_cases literal : a.kind = .intConst
    · obtain ⟨n, reads⟩ := readable literal
      refine ⟨_, observe_literal ⟨a, literal, n, reads⟩, ?_, ?_⟩
      · simp [ParseSymbol.symbol, Symbol.hasValue, literal]
      · simp [ParseSymbol.symbol, literal]
    · refine ⟨_, observe_mark ⟨a, rfl⟩ ?_ ?_, ?_, ?_⟩
      · cases kind : a.kind <;> simp_all [Kind.category]
      · cases kind : a.kind <;> simp_all [Kind.category]
      · simp [ParseSymbol.symbol, Symbol.hasValue, identifier, literal]
      · simp [ParseSymbol.symbol, identifier]

theorem observe_reduce (r : Rule) {top : List (Attributed Operand)}
    (body : top.map (·.symbol.symbol) = r.production.body.reverse) (fits : ∀ a ∈ top, a.Fits)
    (q : Nat) (rest : List (Attributed Operand)) (emitted : List Instruction) (next : Nat) :
    ∃ v emitted' next', observe (.reduce q r.production) ⟨⟨top ++ rest⟩, emitted, next⟩ =
        .ok () ⟨⟨⟨.nonTerminal r.production.head, v⟩ :: rest⟩, emitted', next'⟩ ∧
      Attributed.Fits ⟨.nonTerminal r.production.head, v⟩ := by
  cases r with
  | program | intType =>
    obtain ⟨x, rfl, -⟩ := AttributeStack.exists_one body
    exact ⟨none, _, _, rfl, .nonTerminal rfl⟩
  | lastStatement | declaration =>
    obtain ⟨y, x, rfl, -⟩ := AttributeStack.exists_two body
    exact ⟨none, _, _, rfl, .nonTerminal rfl⟩
  | moreStatements =>
    obtain ⟨z, y, x, rfl, -⟩ := AttributeStack.exists_three body
    exact ⟨none, _, _, rfl, .nonTerminal rfl⟩
  | assignment =>
    obtain ⟨z, y, ⟨s, _⟩, rfl, hx, -, hz⟩ := AttributeStack.exists_three body
    obtain ⟨_, value, rfl⟩ := (fits z (by simp)).exists_value hz rfl
    obtain ⟨target, rfl⟩ := (fits ⟨s, _⟩ (by simp)).target hx
    exact ⟨none, _, _, rfl, .nonTerminal rfl⟩
  | returning =>
    obtain ⟨y, x, rfl, -, hy⟩ := AttributeStack.exists_two body
    obtain ⟨_, value, rfl⟩ := (fits y (by simp)).exists_value hy rfl
    exact ⟨none, _, _, rfl, .nonTerminal rfl⟩
  | arithmetic op =>
    obtain ⟨z, y, x, rfl, hx, -, hz⟩ := AttributeStack.exists_three body
    obtain ⟨_, rhs, rfl⟩ := (fits z (by simp)).exists_value hz (by cases op <;> rfl)
    obtain ⟨_, lhs, rfl⟩ := (fits x (by simp)).exists_value hx (by cases op <;> rfl)
    exact ⟨_, _, _, observe_arithmetic op, .nonTerminal (by cases op <;> rfl)⟩
  | exprOfTerm | termOfFactor | name | literal =>
    obtain ⟨x, rfl, hx⟩ := AttributeStack.exists_one body
    obtain ⟨_, value, rfl⟩ := (fits x (by simp)).exists_value hx rfl
    exact ⟨some value, _, _, rfl, .nonTerminal rfl⟩
  | parenthesized =>
    obtain ⟨z, y, x, rfl, -, hy, -⟩ := AttributeStack.exists_three body
    obtain ⟨_, value, rfl⟩ := (fits y (by simp)).exists_value hy rfl
    exact ⟨some value, _, _, rfl, .nonTerminal rfl⟩

/-- In step with a run, the observer answers the next move, and stays in step. -/
theorem observe_effect {t : Control} {c c' : Configuration} {m : Move} {u : Emitter}
    (mirrors : u.stack.Mirrors c.stack) (fits : ∀ x ∈ u.stack.entries, x.Fits)
    (readable : Readable c.input) (effect : Effect t reference c (.next m c')) :
    ∃ u', observe m u = .ok () u' ∧ u'.stack.Mirrors c'.stack ∧
      ∀ x ∈ u'.stack.entries, x.Fits := by
  obtain ⟨values, emitted, next⟩ := u
  cases effect with
  | @shift stack token input q path =>
    obtain ⟨v, made, fit⟩ := observe_shift (readable token List.mem_cons_self)
      (t.state stack) ⟨values, emitted, next⟩
    refine ⟨_, made, mirrors.push ⟨.token token, q⟩ v, ?_⟩
    intro x hx
    rcases List.mem_cons.mp hx with rfl | hx
    · exact fit
    · exact fits x hx
  | @reduce frames below input q p member other body path =>
    obtain ⟨r, rfl⟩ := Rule.exists_production member other
    obtain ⟨top, rest, rfl, -, named, values⟩ := mirrors.exists_top body
    have fits' : ∀ x ∈ top, x.Fits := fun x hx => fits x (List.mem_append_left rest hx)
    obtain ⟨v, emitted', next', made, fit⟩ := observe_reduce r named fits' q rest emitted next
    refine ⟨_, made, values.push ⟨.nonTerminal r.production.head, q⟩ v, ?_⟩
    intro x hx
    rcases List.mem_cons.mp hx with rfl | hx
    · exact fit
    · exact fits x (List.mem_append_right top hx)

end Emitter

/-! ### The typing observer -/

namespace Typing

variable {stacked : List ParseSymbol} {table table' : Symbols} {findings findings' : List Error}

/-- All that a move can do to the symbol table and the findings: nothing, an identifier gets its
type, or an identifier on the stack is reported. -/
inductive Reports (stacked : List ParseSymbol) (table : Symbols) (findings : List Error) :
    Symbols → List Error → Prop where
  | nothing : Reports stacked table findings table findings
  | declared {id : Token} {ty : Option Ty} {changed : Symbols} :
    table.setType? id.lexeme ty = some changed → Reports stacked table findings changed findings
  | undeclared (id : Token) :
    Reports stacked table findings table
      (.undeclaredIdentifier id.lexeme id.line id.column :: findings)
  | unknown {id : Token} : .token id ∈ stacked → id.kind = .identifier →
    table.get? id.lexeme = none →
    Reports stacked table findings table
      (.unknownIdentifier id.lexeme id.line id.column :: findings)

theorem declare_cases {id : Token} (member : .token id ∈ stacked) (kind : id.kind = .identifier)
    (ty : Option Ty) (stack : AttributeStack Ty) :
    ∃ table' findings', declare id ty (table, ⟨stack, findings, true⟩) =
        .ok () (table', ⟨stack, findings', true⟩) ∧
      Reports stacked table findings table' findings' := by
  cases set : table.setType? id.lexeme ty with
  | some changed =>
    refine ⟨changed, findings, ?_, .declared set⟩
    simp [declare, bind, EStateM.bind, symbols, set, setSymbols]
  | none =>
    have absent : table.get? id.lexeme = none := by
      simpa [Symbols.setType?, Symbols.modify?] using set
    refine ⟨table, _, ?_, .unknown member kind absent⟩
    simp [declare, bind, EStateM.bind, symbols, set, report]

theorem lookup_cases (id : Token) (stack : AttributeStack Ty) :
    ∃ ty findings', lookup id (table, ⟨stack, findings, true⟩) =
        .ok ty (table, ⟨stack, findings', true⟩) ∧
      Reports stacked table findings table findings' := by
  cases declared : table.typeOf? id.lexeme with
  | some ty =>
    refine ⟨some ty, findings, ?_, .nothing⟩
    simp [lookup, bind, EStateM.bind, symbols, declared, pure, EStateM.pure]
  | none =>
    refine ⟨none, _, ?_, .undeclared id⟩
    simp [lookup, bind, EStateM.bind, symbols, declared, report, pure, EStateM.pure]

theorem observe_reduce (r : Rule) {top : List (Attributed Ty)}
    (body : top.map (·.symbol.symbol) = r.production.body.reverse) (q : Nat)
    (rest : List (Attributed Ty)) (table : Symbols) (findings : List Error) :
    ∃ v table' findings',
      observe (.reduce q r.production) (table, ⟨⟨top ++ rest⟩, findings, true⟩) =
        .ok () (table', ⟨⟨⟨.nonTerminal r.production.head, v⟩ :: rest⟩, findings', true⟩) ∧
      Reports (top.map (·.symbol)) table findings table' findings' := by
  cases r with
  | program | intType | exprOfTerm | termOfFactor | literal =>
    obtain ⟨x, rfl, -⟩ := AttributeStack.exists_one body
    exact ⟨_, _, _, rfl, .nothing⟩
  | lastStatement | returning =>
    obtain ⟨y, x, rfl, -⟩ := AttributeStack.exists_two body
    exact ⟨_, _, _, rfl, .nothing⟩
  | moreStatements | parenthesized =>
    obtain ⟨z, y, x, rfl, -⟩ := AttributeStack.exists_three body
    exact ⟨_, _, _, rfl, .nothing⟩
  | arithmetic op =>
    obtain ⟨z, y, x, rfl, -⟩ := AttributeStack.exists_three body
    cases op <;> exact ⟨_, _, _, rfl, .nothing⟩
  | declaration =>
    obtain ⟨⟨_, v⟩, x, rfl, -, hy⟩ := AttributeStack.exists_two body
    obtain ⟨id, rfl, kind⟩ := ParseSymbol.exists_token hy
    obtain ⟨table', findings', made, reports⟩ :=
      declare_cases (show .token id ∈ [.token id, x.symbol] by simp) kind x.value ⟨rest⟩
    refine ⟨x.value, table', findings', eStateM_bind_eq_ok.mpr
      ⟨x.value, (table', ⟨⟨rest⟩, findings', true⟩), ?_, rfl⟩, reports⟩
    show (declare id x.value >>= fun _ => pure x.value) (table, ⟨⟨rest⟩, findings, true⟩) = _
    exact eStateM_bind_eq_ok.mpr ⟨(), _, made, rfl⟩
  | assignment =>
    obtain ⟨z, y, ⟨_, v⟩, rfl, hx, -, -⟩ := AttributeStack.exists_three body
    obtain ⟨id, rfl, kind⟩ := ParseSymbol.exists_token hx
    obtain ⟨ty, findings', made, reports⟩ := lookup_cases id ⟨rest⟩
    exact ⟨ty, table, findings', eStateM_bind_eq_ok.mpr ⟨ty, _, made, rfl⟩, reports⟩
  | name =>
    obtain ⟨⟨_, v⟩, rfl, hx⟩ := AttributeStack.exists_one body
    obtain ⟨id, rfl, kind⟩ := ParseSymbol.exists_token hx
    obtain ⟨ty, findings', made, reports⟩ := lookup_cases id ⟨rest⟩
    exact ⟨ty, table, findings', eStateM_bind_eq_ok.mpr ⟨ty, _, made, rfl⟩, reports⟩

theorem Reports.mono (h : Reports stacked table findings table' findings')
    {more : List ParseSymbol} (sub : ∀ x ∈ stacked, x ∈ more) :
    Reports more table findings table' findings' := by
  cases h with
  | nothing => exact .nothing
  | declared set => exact .declared set
  | undeclared id => exact .undeclared id
  | unknown member kind absent => exact .unknown (sub _ member) kind absent

theorem observe_effect {t : Control} {c c' : Configuration} {m : Move} {u : Typing}
    (mirrors : u.stack.Mirrors c.stack) (bound : u.bound = true)
    (effect : Effect t reference c (.next m c')) (table : Symbols) :
    ∃ table' u', observe m (table, u) = .ok () (table', u') ∧ u'.stack.Mirrors c'.stack ∧
      u'.bound = true ∧
      Reports (c.stack.map (·.symbol)) table u.findings table' u'.findings := by
  obtain ⟨types, findings, _⟩ := u
  cases bound
  cases effect with
  | @shift stack token input q path =>
    exact ⟨_, _, rfl, mirrors.push ⟨.token token, q⟩ none, rfl, .nothing⟩
  | @reduce frames below input q p member other body path =>
    obtain ⟨r, rfl⟩ := Rule.exists_production member other
    obtain ⟨top, rest, rfl, same, named, types⟩ := mirrors.exists_top body
    obtain ⟨ty, table', findings', typed, reports⟩ := observe_reduce r named q rest table findings
    refine ⟨_, _, typed, types.push ⟨.nonTerminal r.production.head, q⟩ ty, rfl, reports.mono ?_⟩
    intro x hx
    rw [same] at hx
    rw [List.map_append]
    exact List.mem_append_left _ hx

end Typing

/-! ### Both of them -/

namespace Analysis

variable {t : Control} {a : Analysis} {c c' : Configuration} {m : Move}

/-- Observers that are in step with a configuration: their stacks hold its symbols, and the emitting
observer's values fit them. -/
structure Follows (a : Analysis) (c : Configuration) : Prop where
  typing : a.typing.stack.Mirrors c.stack
  bound : a.typing.bound = true
  emitter : a.emitter.stack.Mirrors c.stack
  fits : ∀ x ∈ a.emitter.stack.entries, x.Fits

theorem follows_ofSymbols (symbols : Symbols) (tokens : List Token) :
    (ofSymbols symbols).Follows ⟨[], tokens⟩ where
  typing := rfl
  bound := rfl
  emitter := rfl
  fits := by
    intro x hx
    cases hx

theorem observe_eq {symbols : Symbols} {typing : Typing} {emitter : Emitter}
    (typed : Typing.observe m (a.symbols, a.typing) = .ok () (symbols, typing))
    (emitted : Emitter.observe m a.emitter = .ok () emitter) :
    observe m a = .ok () ⟨symbols, typing, emitter, ⟨.ofMove m :: a.trace.past⟩⟩ := by
  simp [observe, observeTyping, observeEmitter, observeTrace, bind, EStateM.bind, typed, emitted,
    Trace.observe]

theorem Follows.observe (follows : a.Follows c) (readable : Readable c.input)
    (effect : Effect t reference c (.next m c')) :
    ∃ a', Analysis.observe m a = .ok () a' ∧ a'.Follows c' ∧
      Typing.Reports (c.stack.map (·.symbol)) a.symbols a.typing.findings a'.symbols
        a'.typing.findings := by
  obtain ⟨symbols, typing, typed, types, bound, reports⟩ :=
    Typing.observe_effect follows.typing follows.bound effect a.symbols
  obtain ⟨emitter, emitted, values, fits⟩ :=
    Emitter.observe_effect follows.emitter follows.fits readable effect
  exact ⟨_, observe_eq typed emitted, ⟨types, bound, values, fits⟩, reports⟩

/-- The observers of a compilation as subscribers, in their order. -/
def subscribed (journal : Journal) (a : Analysis) : Shared × List Subscriber :=
  (⟨a.symbols, journal⟩, [.typing a.typing, .emitter a.emitter, .trace a.trace])

theorem observe_subscribed (journal : Journal) (m : Move) (a : Analysis) :
    Observer.all Subscriber.observe m (a.subscribed journal) =
      onState (subscribed journal) (Analysis.observe m a) := by
  obtain ⟨symbols, typing, emitter, trace⟩ := a
  simp only [subscribed, Observer.all, Observer.each, Subscriber.observe, Analysis.observe,
    observeTyping, observeEmitter, observeTrace, bind, EStateM.bind]
  cases Typing.observe m (symbols, typing) with
  | error e r => rfl
  | ok _ r =>
    cases emitted : Emitter.observe m emitter with
    | error e u => simp only [emitted, onState, subscribed]
    | ok _ u => simp only [emitted, Trace.observe, onState, subscribed]

/-- The run of a compilation is the run that typing, emitting and tracing subscribers follow. -/
theorem follow_eq_run (t : Control) (tokens : List Token) (symbols : Symbols)
    (journal : Journal) :
    Subscriber.follow t tokens
        (⟨symbols, journal⟩, [.typing .empty, .emitter .empty, .trace .empty]) =
      onState (subscribed journal) (t.run Analysis.observe tokens (.ofSymbols symbols)) :=
  Control.run_map (s := ofSymbols symbols) (observe_subscribed journal)

end Analysis

/-! ### Subscribers -/

namespace Subscriber

variable {t : Control} {c c' : Configuration} {m : Move} {stack : List Frame} {s u : Subscriber}
  {fresh us : List Subscriber} {w : Shared}

/-- What a fresh observer has become when it is in step with a parse stack: it holds the symbols of
that stack, and an emitting observer has values that fit them. -/
inductive InStep (stack : List Frame) : Subscriber → Subscriber → Prop where
  | typing {u : Typing} (mirrors : u.stack.Mirrors stack) (bound : u.bound = true) :
    InStep stack (.typing .empty) (.typing u)
  | emitter {u : Emitter} (mirrors : u.stack.Mirrors stack)
    (fits : ∀ x ∈ u.stack.entries, x.Fits) : InStep stack (.emitter .empty) (.emitter u)

theorem inStep_bind (fresh : s = .typing .empty ∨ s = .emitter .empty) : InStep [] s s.bind := by
  rcases fresh with rfl | rfl
  · exact .typing rfl rfl
  · refine .emitter rfl ?_
    intro x hx
    cases hx

theorem InStep.observe (inStep : InStep c.stack s u) (readable : Readable c.input)
    (effect : Effect t reference c (.next m c')) (w : Shared) :
    ∃ symbols u', Subscriber.observe m (w, u) = .ok () ({ w with symbols }, u') ∧
      InStep c'.stack s u' := by
  cases inStep with
  | typing mirrors bound =>
    obtain ⟨symbols, u', typed, mirrors', bound', -⟩ :=
      Typing.observe_effect mirrors bound effect w.symbols
    refine ⟨symbols, .typing u', ?_, .typing mirrors' bound'⟩
    simp only [Subscriber.observe, typed]
  | emitter mirrors fits =>
    obtain ⟨u', emitted, mirrors', fits'⟩ := Emitter.observe_effect mirrors fits readable effect
    refine ⟨w.symbols, .emitter u', ?_, .emitter mirrors' fits'⟩
    simp only [Subscriber.observe, emitted]

theorem InStep.observe_accept (inStep : InStep stack s u) (q : Nat) (w : Shared) :
    ∃ symbols u', Subscriber.observe (.accept q) (w, u) = .ok () ({ w with symbols }, u') ∧
      InStep [] s u' := by
  cases inStep with
  | typing _ bound => exact ⟨w.symbols, _, rfl, .typing rfl bound⟩
  | emitter =>
    refine ⟨w.symbols, _, rfl, .emitter rfl ?_⟩
    intro x hx
    cases hx

/-- Subscribers that each answer a move, whatever table they share, all answer it. -/
theorem exists_all {P Q : Subscriber → Subscriber → Prop}
    (answers : ∀ s u w, P s u →
      ∃ symbols u', observe m (w, u) = .ok () ({ w with symbols }, u') ∧ Q s u')
    (before : List.Forall₂ P fresh us) (w : Shared) :
    ∃ symbols us', Observer.all observe m (w, us) = .ok () ({ w with symbols }, us') ∧
      List.Forall₂ Q fresh us' := by
  induction before generalizing w with
  | nil => exact ⟨w.symbols, [], rfl, .nil⟩
  | cons first _ ih =>
    obtain ⟨symbols, u', answered, now⟩ := answers _ _ w first
    obtain ⟨symbols', us', told, further⟩ := ih { w with symbols }
    refine ⟨symbols', u' :: us', ?_, .cons now further⟩
    rw [Observer.all] at told
    simp only [Observer.all, Observer.each, answered, told]

/-- Subscribers in step with a run whose literals can be read. -/
structure Accompany (w : Shared) (fresh : List Subscriber) (c : Configuration)
    (r : Shared × List Subscriber) : Prop where
  path : Path reference c.stack
  reads : Readable c.input
  inStep : List.Forall₂ (InStep c.stack) fresh r.2
  shared : ∃ symbols, r.1 = { w with symbols }

theorem accompany_bind {tokens : List Token} (readable : Readable tokens)
    (observers : ∀ s ∈ fresh, s = .typing .empty ∨ s = .emitter .empty) (w : Shared) :
    Accompany w fresh ⟨[], tokens⟩ (w, fresh.map bind) := by
  refine ⟨.nil, readable, ?_, w.symbols, rfl⟩
  rw [List.forall₂_map_right_iff, List.forall₂_same]
  exact fun s hs => inStep_bind (observers s hs)

theorem Accompany.observe (realizes : t.Realizes reference) {r : Shared × List Subscriber}
    (accompany : Accompany w fresh c r) (first : t.step c = .next m c') :
    ∃ r', Observer.all Subscriber.observe m r = .ok () r' ∧ Accompany w fresh c' r' := by
  obtain ⟨path, reads, inStep, symbols, shared⟩ := accompany
  have effect := path.effect augmented_reference.numbered realizes
  rw [first] at effect
  obtain ⟨symbols', us, answered, inStep'⟩ :=
    exists_all (fun s u w inStep => inStep.observe reads effect w) inStep r.1
  refine ⟨_, answered, effect.path, ?_, inStep', symbols', by rw [shared]⟩
  cases effect with
  | shift => exact reads.of_cons
  | reduce => exact reads

theorem stack_of_accepted {t : Table} (built : Table.reference = .ok t) {tokens : List Token}
    {ms : List Move} (steps : t.control.Steps ms ⟨[], tokens⟩ c) {q : Nat}
    (accepts : t.control.step c = .accepted q) :
    c.stack.map (·.symbol) = [.nonTerminal .program] := by
  have rooted := augmented_reference.toRooted
  have realizes := Table.realizes_reference built
  have parsed := (Parsed.initial reference tokens).run rooted.numbered realizes steps
  have whole := (parsed.path.of_accepted rooted realizes accepts).1
  rw [symbolsOf, List.reverse_eq_iff] at whole
  obtain ⟨⟨s, q'⟩, only, named⟩ := List.map_eq_singleton_iff.mp whole
  rw [only]
  cases s with
  | token id => cases named
  | nonTerminal n =>
    cases named
    rfl

/-- Fresh typing and emitting observers, in any order and number, stay in step with a run over
tokens whose literals can be read. Whatever steps the run makes, told of them they answer, and their
stacks then hold the symbols of the parse stack, top first, with a value in an emitting observer
just for identifiers, literals, expressions, terms and factors. States and symbols that are kept
apart are those of the parse stack, at one height. So none of the observers ever refuses a move: the
run ends as it does without them, and where it accepts their stacks are empty. -/
theorem follow_inStep (tokens : List Token) (readable : Readable tokens) (w : Shared)
    (fresh : List Subscriber)
    (observers : ∀ s ∈ fresh, s = .typing .empty ∨ s = .emitter .empty) :
    ∃ t, Table.reference = .ok t ∧
      (∀ ms c, t.control.Steps ms ⟨[], tokens⟩ c → ∃ symbols us,
        (Observer.all observe).tell ms (w, fresh.map bind) = .ok () ({ w with symbols }, us) ∧
        (∀ n, t.control.runFor (Observer.all observe) (ms.length + n) ⟨[], tokens⟩
            (w, fresh.map bind) =
          t.control.runFor (Observer.all observe) n c ({ w with symbols }, us)) ∧
        List.Forall₂ (InStep c.stack) fresh us) ∧
      (∀ s, (Stacks.Reaches t.control (.start t.control tokens) s ↔
          ∃ ms c, t.control.Steps ms ⟨[], tokens⟩ c ∧ s = .ofConfiguration t.control c) ∧
        (Stacks.Reaches t.control (.start t.control tokens) s →
          s.states.length = s.symbols.length)) ∧
      ((follow t.control tokens (w, []) = .ok () (w, []) ∧ ∃ symbols us,
          follow t.control tokens (w, fresh) = .ok () ({ w with symbols }, us) ∧
          List.Forall₂ (InStep []) fresh us) ∨
        ∃ e r, follow t.control tokens (w, []) = .error e (w, []) ∧
          follow t.control tokens (w, fresh) = .error e r) := by
  obtain ⟨t, built⟩ := Table.exists_reference
  have numbered := augmented_reference.numbered
  have realizes := Table.realizes_reference built
  have start := accompany_bind readable observers w
  have kept : ∀ ms c, t.control.Steps ms ⟨[], tokens⟩ c → ∃ r,
      (Observer.all observe).tell ms (w, fresh.map bind) = .ok () r ∧ Accompany w fresh c r :=
    fun ms c steps => steps.exists_told
      (fun c m c' r accompany first => Accompany.observe realizes accompany first) start
  refine ⟨t, built, ?_, fun s => ⟨Stacks.reaches_iff, Stacks.Reaches.height⟩, ?_⟩
  · intro ms c steps
    obtain ⟨⟨_, us⟩, told, -, -, inStep, symbols, rfl⟩ := kept ms c steps
    exact ⟨symbols, us, told, fun n => Control.runFor_steps steps told, inStep⟩
  · obtain ⟨ms, c, steps, halts⟩ := exists_halt numbered realizes weighingReference start.path
    have enough := weighingReference.length_lt_stepBudget numbered realizes (by decide) steps
    obtain ⟨⟨_, us⟩, told, -, -, inStep, symbols, rfl⟩ := kept ms c steps
    have quiet := (Observer.quiet_all observe w).tell
    cases last : t.control.step c with
    | next m d => exact absurd last (halts m d)
    | accepted q =>
      obtain ⟨symbols', us', answered, drained⟩ :=
        exists_all (fun s u w inStep => inStep.observe_accept q w) inStep { w with symbols }
      refine Or.inl ⟨?_, symbols', us', ?_, drained⟩
      · exact Control.run_of_runFor (Control.runFor_of_accepted steps last (quiet _) enough)
      · refine Control.run_of_runFor (Control.runFor_of_accepted steps last ?_ enough)
        rw [Observer.tell_append told, Observer.tell_cons answered]
        rfl
    | failed e =>
      refine Or.inr ⟨e, ({ w with symbols }, us), ?_, ?_⟩
      · exact Control.run_of_runFor (Control.runFor_of_failed steps last (quiet _) enough)
      · exact Control.run_of_runFor (Control.runFor_of_failed steps last told enough)

/-- The tokens of `x = 1 + 2;`, with the emitting observer before the typing observer. Before
acceptance both stacks hold the program, behind which the separate stacks have their bottoms. -/
theorem follow_inStep_sum :
    let tokens : List Token := [⟨.identifier, "x", 1, 1⟩, ⟨.assign, "=", 1, 3⟩,
      ⟨.intConst, "1", 1, 5⟩, ⟨.plus, "+", 1, 7⟩, ⟨.intConst, "2", 1, 9⟩, ⟨.semicolon, ";", 1, 10⟩,
      ⟨.endOfInput, "", 1, 11⟩]
    let fresh : List Subscriber := [.emitter .empty, .typing .empty]
    let w : Shared := ⟨.empty, []⟩
    Readable tokens ∧ (∀ s ∈ fresh, s = .typing .empty ∨ s = .emitter .empty) ∧
      ∃ t ms c q, Table.reference = .ok t ∧ t.control.Steps ms ⟨[], tokens⟩ c ∧
        t.control.step c = .accepted q ∧
        (∃ symbols u v, (Observer.all observe).tell ms (w, fresh.map bind) =
            .ok () ({ w with symbols }, [.emitter u, .typing v]) ∧
          u.stack.entries.map (·.symbol) = [.nonTerminal .program] ∧
          v.stack.entries.map (·.symbol) = [.nonTerminal .program]) ∧
        (∃ s, Stacks.Reaches t.control (.start t.control tokens) s ∧
          s.symbols = [.nonTerminal .program, Stacks.bottom] ∧ s.states.length = 2) ∧
        ∃ symbols us, follow t.control tokens (w, fresh) = .ok () ({ w with symbols }, us) ∧
          List.Forall₂ (InStep []) fresh us := by
  intro tokens fresh w
  have readable : Readable tokens := by decide
  have observers : ∀ s ∈ fresh, s = .typing .empty ∨ s = .emitter .empty := by simp [fresh]
  have accepts : (do
      match follow (← Table.reference).control tokens (w, []) with
      | .ok _ _ => .ok true
      | .error _ _ => .ok false) = (Except.ok true : Except Error Bool) := by decide +kernel
  obtain ⟨t, built, accepts⟩ := bind_eq_ok.mp accepts
  obtain ⟨t', built', inStep, apart, outcome⟩ := follow_inStep tokens readable w fresh observers
  obtain rfl : t = t' := Except.ok.inj (built.symm.trans built')
  rcases outcome with ⟨alone, symbols', us', followed, drained⟩ | ⟨e, r, refused, -⟩
  · obtain ⟨ms, c, q, steps, accepted, -⟩ :=
      Control.exists_steps_of_runFor (Control.runFor_of_run alone)
    have stack := stack_of_accepted built steps accepted
    obtain ⟨symbols, us, told, -, both⟩ := inStep ms c steps
    have reached := (apart (.ofConfiguration t.control c)).1.mpr ⟨ms, c, steps, rfl⟩
    have shown : (Stacks.ofConfiguration t.control c).symbols =
        [.nonTerminal .program, Stacks.bottom] := by
      rw [Stacks.ofConfiguration, stack]
      rfl
    have level := (apart _).2 reached
    rw [shown] at level
    refine ⟨readable, observers, t, ms, c, q, built, steps, accepted, ?_,
      ⟨_, reached, shown, level⟩, symbols', us', followed, drained⟩
    obtain ⟨_, _, _ | ⟨values, -⟩, other, rfl⟩ := List.forall₂_cons_left_iff.mp both
    obtain ⟨_, _, ⟨types, -⟩, none, rfl⟩ := List.forall₂_cons_left_iff.mp other
    obtain rfl := List.forall₂_nil_left_iff.mp none
    exact ⟨symbols, _, _, told, values.trans stack, types.trans stack⟩
  · rw [refused] at accepts
    cases accepts

end Subscriber

end Straightline
