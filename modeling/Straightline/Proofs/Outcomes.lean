import Straightline.Proofs.Correctness
import Straightline.Proofs.Lockstep
import Straightline.Proofs.RegisterPressure

/-!
# What a compilation can end with

A source text compiles, or is refused for a stray character, a number that is no word, a token that
does not fit, or too few registers (`Compilation.ofSource_outcome`). Nothing else can go wrong: the
observers answer every move of the parser, the end of input is always ahead of it, and normal code
is what code is generated for.
-/
namespace Straightline

open Grammar

/-! ### Findings of the typing observer -/

def Error.IsUndeclared (e : Error) : Prop :=
  ∃ name line column, e = .undeclaredIdentifier name line column

theorem Symbols.contains_eq (s : Symbols) (name : String) :
    s.contains name = (s.get? name).isSome :=
  Std.TreeMap.contains_eq_isSome_getElem?

namespace Typing.Reports

variable {stacked : List ParseSymbol} {table table' : Symbols} {findings findings' : List Error}

theorem contains (h : Reports stacked table findings table' findings') (name : String) :
    table'.contains name = table.contains name := by
  cases h with
  | nothing => rfl
  | @declared id ty changed set =>
    obtain ⟨entry, there, -⟩ := Option.map_eq_some_iff.mp set
    rw [Symbols.contains_eq, Symbols.contains_eq, Symbols.get?_of_modify? set]
    by_cases same : id.lexeme = name
    · subst same
      simp [there]
    · rw [if_neg same]
  | undeclared => rfl
  | unknown => rfl

theorem isUndeclared (h : Reports stacked table findings table' findings')
    (known : ∀ id, .token id ∈ stacked → id.kind = .identifier → table.contains id.lexeme = true)
    (before : ∀ d ∈ findings, d.IsUndeclared) : ∀ d ∈ findings', d.IsUndeclared := by
  cases h with
  | nothing => exact before
  | declared => exact before
  | undeclared id =>
    intro d hd
    rcases List.mem_cons.mp hd with rfl | hd
    · exact ⟨_, _, _, rfl⟩
    · exact before d hd
  | @unknown id member kind absent =>
    have there := known id member kind
    rw [Symbols.contains_eq, absent] at there
    cases there

end Typing.Reports

/-! ### The parse -/

namespace Analysis

variable {t : Control} {a : Analysis} {c c' : Configuration} {m : Move}

/-- Observers in step with a run whose literals can be read and whose identifiers, ahead or on the
stack, are in the symbol table. -/
structure Knows (a : Analysis) (c : Configuration) : Prop where
  path : Path reference c.stack
  follows : a.Follows c
  reads : Readable c.input
  ahead : ∀ id ∈ c.input, id.kind = .identifier → a.symbols.contains id.lexeme = true
  stacked : ∀ id, .token id ∈ c.stack.map (·.symbol) → id.kind = .identifier →
    a.symbols.contains id.lexeme = true
  findings : ∀ d ∈ a.typing.findings, d.IsUndeclared

theorem Knows.observe (realizes : t.Realizes reference) (knows : a.Knows c)
    (first : t.step c = .next m c') :
    ∃ a', Analysis.observe m a = .ok () a' ∧ a'.Knows c' := by
  have effect := knows.path.effect augmented_reference.numbered realizes
  rw [first] at effect
  obtain ⟨a', answered, follows, reports⟩ := knows.follows.observe knows.reads effect
  have findings := reports.isUndeclared knows.stacked knows.findings
  refine ⟨a', answered, effect.path, follows, ?_, ?_, ?_, findings⟩
  · cases effect with
    | shift => exact knows.reads.of_cons
    | reduce => exact knows.reads
  · simp only [reports.contains]
    cases effect with
    | shift => exact fun id ahead => knows.ahead id (List.mem_cons_of_mem _ ahead)
    | reduce => exact knows.ahead
  · simp only [reports.contains]
    cases effect with
    | shift =>
      intro id stacked
      rcases List.mem_cons.mp stacked with new | old
      · obtain rfl := ParseSymbol.token.inj new
        exact knows.ahead id List.mem_cons_self
      · exact knows.stacked id old
    | reduce =>
      intro id stacked
      rcases List.mem_cons.mp stacked with new | old
      · cases new
      · refine knows.stacked id ?_
        rw [List.map_append]
        exact List.mem_append_right _ old

theorem knows_ofSymbols {tokens : List Token} {symbols : Symbols} (reads : Readable tokens)
    (known : ∀ id ∈ tokens, id.kind = .identifier → symbols.contains id.lexeme = true) :
    (ofSymbols symbols).Knows ⟨[], tokens⟩ := by
  refine ⟨.nil, follows_ofSymbols symbols tokens, reads, known, ?_, ?_⟩
  · intro id stacked
    cases stacked
  · intro d found
    cases found

/-- A run over tokens with the end of input among them accepts, with no findings but identifiers
that are not declared, or refuses a token. -/
theorem run_cases {t : Table} (built : Table.reference = .ok t) {tokens : List Token}
    {symbols : Symbols} {e : Token} (member : e ∈ tokens) (ends : e.kind = .endOfInput)
    (reads : Readable tokens)
    (known : ∀ id ∈ tokens, id.kind = .identifier → symbols.contains id.lexeme = true) :
    (∃ a, t.control.run observe tokens (.ofSymbols symbols) = .ok () a ∧
      ∀ d ∈ a.typing.diagnostics, d.IsUndeclared) ∨
    ∃ state token a,
      t.control.run observe tokens (.ofSymbols symbols) =
        .error (Control.unexpected state token) a := by
  have numbered := augmented_reference.numbered
  have realizes := Table.realizes_reference built
  have start := knows_ofSymbols reads known
  obtain ⟨ms, c, steps, halts⟩ := exists_halt numbered realizes weighingReference start.path
  have enough := weighingReference.length_lt_stepBudget numbered realizes (by decide) steps
  obtain ⟨a, told, knows⟩ := steps.exists_told
    (fun c m c' a knows first => Knows.observe realizes knows first) start
  have effect := knows.path.effect numbered realizes
  cases last : t.control.step c with
  | next m d => exact absurd last (halts m d)
  | accepted q =>
    left
    have accepted : ∃ a', observe (.accept q) a = .ok () a' ∧
        a'.typing.findings = a.typing.findings := ⟨_, observe_eq rfl rfl, rfl⟩
    obtain ⟨a', answered, same⟩ := accepted
    refine ⟨a', ?_, ?_⟩
    · refine Control.run_of_runFor (Control.runFor_of_accepted steps last ?_ enough)
      rw [Observer.tell_append told, Observer.tell_cons answered]
      rfl
    · intro d hd
      rw [Typing.diagnostics, List.mem_reverse, same] at hd
      exact knows.findings d hd
  | failed e' =>
    right
    rw [last] at effect
    cases effect with
    | @reject stack token rest acts =>
      exact ⟨_, token, a, Control.run_of_runFor (Control.runFor_of_failed steps last told enough)⟩
    | @starve stack =>
      -- the end of input is in no body, so that it is never shifted
      have parsed := (Parsed.initial reference tokens).run numbered realizes steps
      have nowhere : ∀ p ∈ reference.productions, e.symbol ∉ p.body := by
        rw [Token.symbol, ends]
        decide
      cases parsed.mem_input member nowhere

end Analysis

/-! ### The whole -/

theorem Options.registers_ne_nil {o : Options} (h : o.validate = .ok o) : o.registers ≠ [] := by
  intro none
  unfold validate fault? at h
  rw [none] at h
  cases h

namespace Compilation

variable {o : Options} {a : Analysis}

/-- Code that names no variable by the empty string gets a line for each normal instruction, or the
registers run out. -/
theorem ofAnalysis_cases (tokens : List Token) (nonempty : o.registers ≠ [])
    (distinct : o.registers.Nodup)
    (named : ∀ v ∈ a.emitter.program.instructions.flatMap (·.occurrences), v ≠ .named "") :
    (∃ r, ofAnalysis o tokens a = .ok r ∧ r.diagnostics = a.typing.diagnostics ∧
      r.assembly.lines.length = r.normalized.instructions.length) ∨
    ∃ v, ofAnalysis o tokens a = .error (.registersExhausted v o.registers.length) := by
  have normal := Instruction.normalForm_normalAll a.emitter.program.nextTemp
    a.emitter.program.instructions
  rw [← Program.normalize_instructions] at normal
  -- normal form adds temporaries, and no names
  have named' : ∀ v ∈ a.emitter.program.normalize.program.instructions.flatMap (·.occurrences),
      v ≠ .named "" := by
    rintro v occurs rfl
    rw [Program.normalize_instructions] at occurs
    exact named _ (Instruction.named_of_mem_normalAll occurs) rfl
  have allocated := Registers.ofNames_of_nodup nonempty distinct
    (.ofInstructions a.emitter.program.normalize.program.instructions)
  rcases Target.generate_cases ⟨o.returnRegister, o.comments⟩ normal named' allocated with
    ⟨assembly, generated, lines, -⟩ | ⟨k, v, -, -, failed⟩
  · left
    refine ⟨_, bind_eq_ok.mpr ⟨_, allocated, bind_eq_ok.mpr ⟨assembly, generated, rfl⟩⟩, rfl, ?_⟩
    exact lines
  · right
    refine ⟨v, ?_⟩
    simp only [ofAnalysis, allocated, failed, bind, Except.bind]

theorem readable_of_scanned {front : List Token} {e : Token} (ends : e.kind = .endOfInput)
    (proper : ∀ t ∈ front, t.Scanned) : Readable (front ++ [e]) := by
  refine readable_append.mpr ⟨fun t ht => (proper t ht).reads, ?_⟩
  intro t ht literal
  rw [List.mem_singleton.mp ht, ends] at literal
  cases literal

theorem named_of_run {t : Table} (built : Table.reference = .ok t) {front : List Token} {e : Token}
    {symbols : Symbols} (ends : e.kind = .endOfInput) (proper : ∀ t ∈ front, t.Scanned)
    (reads : Readable (front ++ [e]))
    (ran : t.control.run Analysis.observe (front ++ [e]) (.ofSymbols symbols) = .ok () a) :
    ∀ v ∈ a.emitter.program.instructions.flatMap (·.occurrences), v ≠ .named "" := by
  obtain ⟨l, e', rest, -, same, code⟩ := exists_program_of_run built reads ran
  rintro v occurs rfl
  rw [code] at occurs
  obtain ⟨s, member, id, used, empty⟩ := Statement.exists_reference_of_codeAll occurs
  obtain ⟨leaf, identifier⟩ := l.mem_yield_of_mem_references member used
  have there : id ∈ front ++ [e] := by
    rw [same]
    refine List.mem_append_left _ ?_
    show id ∈ l.forest.yield ++ []
    simpa using leaf
  rcases List.mem_append.mp there with inner | last
  · exact (proper id inner).named identifier empty
  · rw [List.mem_singleton.mp last, ends] at identifier
    cases identifier

theorem ofTokens_outcome {t : Table} (built : Table.reference = .ok t) (nonempty : o.registers ≠ [])
    (distinct : o.registers.Nodup) {front : List Token} {e : Token} {symbols : Symbols}
    (ends : e.kind = .endOfInput) (proper : ∀ t ∈ front, t.Scanned)
    (known : ∀ id ∈ front ++ [e], id.kind = .identifier → symbols.contains id.lexeme = true) :
    (∃ r, ofTokens o t.control (front ++ [e]) symbols = .ok r ∧
      (∀ d ∈ r.diagnostics, d.IsUndeclared) ∧
      r.assembly.lines.length = r.normalized.instructions.length) ∨
    (∃ state token, ofTokens o t.control (front ++ [e]) symbols =
      .error (Control.unexpected state token)) ∨
    ∃ v, ofTokens o t.control (front ++ [e]) symbols =
      .error (.registersExhausted v o.registers.length) := by
  have reads := readable_of_scanned ends proper
  rw [ofTokens_def]
  dsimp only
  rcases Analysis.run_cases built (List.mem_append_right front List.mem_cons_self) ends reads known
    with ⟨a, ran, findings⟩ | ⟨state, token, a, refused⟩
  · rw [ran]
    rcases ofAnalysis_cases (front ++ [e]) nonempty distinct
      (named_of_run built ends proper reads ran) with ⟨r, made, same, lines⟩ | ⟨v, failed⟩
    · refine Or.inl ⟨r, made, ?_, lines⟩
      rw [same]
      exact findings
    · exact Or.inr (Or.inr ⟨v, failed⟩)
  · rw [refused]
    exact Or.inr (Or.inl ⟨state, token, rfl⟩)

/-- All that a source text can lead to. With valid options and different registers it compiles, with
no diagnostics but identifiers that are not declared and one line for each normal instruction, or
it is refused for one of four reasons that are its own. -/
theorem ofSource_outcome (valid : o.validate = .ok o) (distinct : o.registers.Nodup) :
    ∃ t, Table.reference = .ok t ∧ ∀ source,
      (∃ r, ofSource o t.control source = .ok r ∧
        (∀ d ∈ r.diagnostics, ∃ name line column, d = .undeclaredIdentifier name line column) ∧
        r.assembly.lines.length = r.normalized.instructions.length) ∨
      (∃ c line column, ofSource o t.control source =
        .error (.unexpectedCharacter c line column)) ∨
      (∃ text line, ofSource o t.control source = .error (.invalidInteger text line)) ∨
      (∃ state kind lexeme line column, ofSource o t.control source =
        .error (.unexpectedToken state kind lexeme line column)) ∨
      ∃ v, ofSource o t.control source = .error (.registersExhausted v o.registers.length) := by
  obtain ⟨t, built⟩ := Table.exists_reference
  refine ⟨t, built, ?_⟩
  intro source
  unfold ofSource
  cases scanned : Scanner.scan (.ofSource source, .empty) with
  | error e st =>
    rcases Scanner.scan_error scanned with ⟨c, line, column, rfl⟩ | ⟨text, line, rfl⟩
    · exact Or.inr (Or.inl ⟨c, line, column, rfl⟩)
    · exact Or.inr (Or.inr (Or.inl ⟨text, line, rfl⟩))
  | ok tokens st =>
    obtain ⟨scanner, symbols⟩ := st
    obtain ⟨front, e, rfl, ends, proper⟩ := Scanner.scan_cases scanned
    have known := Scanner.contains_of_scan scanned
    rcases ofTokens_outcome built (Options.registers_ne_nil valid) distinct ends proper known with
      made | ⟨state, token, refused⟩ | failed
    · exact Or.inl made
    · exact Or.inr (Or.inr (Or.inr (Or.inl ⟨_, _, _, _, _, refused⟩)))
    · exact Or.inr (Or.inr (Or.inr (Or.inr failed)))

/-- Two registers, and identifiers that are used without a declaration. -/
theorem ofSource_outcome_undeclared :
    let o : Options := ⟨["t0", "t1"], "a0", false⟩
    let source := "x = 1; return x + y;"
    o.validate = .ok o ∧ o.registers.Nodup ∧ ∃ t r, Table.reference = .ok t ∧
      ofSource o t.control source = .ok r ∧
      r.diagnostics = [.undeclaredIdentifier "x" 1 1, .undeclaredIdentifier "x" 1 15,
        .undeclaredIdentifier "y" 1 19] ∧
      r.assembly.lines.length = r.normalized.instructions.length := by
  intro o source
  have valid : o.validate = .ok o := by decide +kernel
  have distinct : o.registers.Nodup := by decide
  have found : (do return (← ofSource o (← Table.reference).control source).diagnostics) =
      Except.ok [Error.undeclaredIdentifier "x" 1 1, .undeclaredIdentifier "x" 1 15,
        .undeclaredIdentifier "y" 1 19] := by decide +kernel
  obtain ⟨t, built, found⟩ := bind_eq_ok.mp found
  obtain ⟨r, compiled, found⟩ := bind_eq_ok.mp found
  obtain ⟨t', built', outcome⟩ := ofSource_outcome valid distinct
  obtain rfl : t = t' := Except.ok.inj (built.symm.trans built')
  refine ⟨valid, distinct, t, r, built, compiled, Except.ok.inj found, ?_⟩
  have outcome := outcome source
  rw [compiled] at outcome
  obtain ⟨r', same, -, lines⟩ := outcome.resolve_right (by simp)
  rw [Except.ok.inj same]
  exact lines

end Compilation

end Straightline
