import Straightline.Compilation
import Straightline.Proofs.Generation
import Straightline.Proofs.Reference
import Straightline.Proofs.Scanning
import Straightline.Proofs.Translation

/-!
# Compiled programs do what their source says

A source text that compiles is the text of a parse tree, and its assembly does what executing the
tree does (`run_of_ofSource`). The stages are put together here: the run of the parser builds a
tree, the emitting observer has emitted the tree's code, and normal form and register allocation
keep what the code does.
-/
namespace Straightline

/-! ### The observers of a compilation -/

namespace Analysis

variable {m : Move} {ms : List Move} {a a' : Analysis}

/-- The emitting observer goes its own way among the others. -/
theorem emitter_of_observe (h : observe m a = .ok () a') :
    Emitter.observe m a.emitter = .ok () a'.emitter := by
  obtain ⟨⟨⟩, a₁, typed, h⟩ := eStateM_bind_eq_ok.mp h
  obtain ⟨⟨⟩, a₂, emitted, traced⟩ := eStateM_bind_eq_ok.mp h
  have first : a₁.emitter = a.emitter := by
    unfold observeTyping at typed
    split at typed
    · cases typed
      rfl
    · cases typed
  have last : a'.emitter = a₂.emitter := by
    unfold observeTrace at traced
    split at traced
    · cases traced
      rfl
    · cases traced
  unfold observeEmitter at emitted
  split at emitted
  · rename_i emitter answered
    cases emitted
    rw [last, ← first]
    exact answered
  · cases emitted

theorem emitter_of_tell (h : observe.tell ms a = .ok () a') :
    Emitter.observe.tell ms a.emitter = .ok () a'.emitter :=
  Observer.tell_map (fun _ _ _ => emitter_of_observe) h

theorem program_of_tell {l : StatementList} {symbols : Symbols} {q : Nat}
    (made : l.program.moves = ms.map Move.erase)
    (told : observe.tell (ms ++ [.accept q]) (.ofSymbols symbols) = .ok () a) :
    a.emitter.program =
      ⟨Statement.codeAll 0 l.statements, Statement.temporariesAll l.statements⟩ := by
  have same := (EStateM.Result.ok.inj
    ((emitter_of_tell told).symm.trans (Emitter.tell_of_moves made q _))).2
  rw [same]
  simp [Emitter.program, Emitter.instructions, ofSymbols, Emitter.empty]

end Analysis

/-! ### The stages -/

theorem Options.apart_of_validate {o : Options} (h : o.validate = .ok o) :
    o.returnRegister ∉ o.registers := by
  unfold validate at h
  split at h
  · cases h
  · rename_i sound
    unfold fault? at sound
    split at sound
    · cases sound
    · split at sound
      · cases sound
      · split at sound
        · cases sound
        · rename_i absent
          simpa using absent

namespace Compilation

open Grammar

variable {t : Table} {o : Options} {tokens : List Token} {symbols : Symbols} {r : Compilation}

-- stated of the function, as `Control.run_def` is
theorem ofTokens_def : ofTokens = fun o t tokens symbols =>
    match t.run Analysis.observe tokens (.ofSymbols symbols) with
    | .error e _ => .error e
    | .ok () a => ofAnalysis o tokens a := rfl

theorem ofTokens_cases {t : Control} (h : ofTokens o t tokens symbols = .ok r) :
    ∃ a registers, t.run Analysis.observe tokens (.ofSymbols symbols) = .ok () a ∧
      Registers.ofNames o.registers
        (.ofInstructions a.emitter.program.normalize.program.instructions) = .ok registers ∧
      Target.generate ⟨o.returnRegister, o.comments⟩
        a.emitter.program.normalize.program.instructions registers = .ok r.assembly := by
  rw [ofTokens_def] at h
  dsimp only at h
  cases outcome : t.run Analysis.observe tokens (.ofSymbols symbols) with
  | error e a =>
    rw [outcome] at h
    cases h
  | ok _ a =>
    rw [outcome] at h
    obtain ⟨registers, allocated, h⟩ := bind_eq_ok.mp h
    obtain ⟨assembly, generated, h⟩ := bind_eq_ok.mp h
    cases h
    exact ⟨a, registers, rfl, allocated, generated⟩

/-- Tokens that a compilation parses are those of a program, and the code emitted is the
program's. -/
theorem exists_program_of_run (built : Table.reference = .ok t) (readable : Readable tokens)
    {a : Analysis}
    (ran : t.control.run Analysis.observe tokens (.ofSymbols symbols) = .ok () a) :
    ∃ (l : StatementList) (e : Token) (rest : List Token), e.kind = .endOfInput ∧
      tokens = l.program.yield ++ e :: rest ∧
      a.emitter.program =
        ⟨Statement.codeAll 0 l.statements, Statement.temporariesAll l.statements⟩ := by
  obtain ⟨f, e, rest, ms, q, ends, rfl, made, told⟩ := (Control.returns_of_run ran).exists_forest
    augmented_reference.toRooted (Table.realizes_reference built)
  obtain ⟨l, rfl⟩ := exists_program f (readable_append.mp readable).1
  exact ⟨l, e, rest, ends, rfl, Analysis.program_of_tell made told⟩

theorem run_normalized {l : StatementList} {p : Program} {x : Option Int64}
    (code : p = ⟨Statement.codeAll 0 l.statements, Statement.temporariesAll l.statements⟩)
    (executed : Statement.execute (fun _ => none) l.statements = .ok x) :
    Program.run (fun _ => none) ∅ p.normalize.program.instructions = .ok x := by
  have below := Statement.codeAll_below l.statements 0
  rw [Nat.zero_add] at below
  rw [Program.normalize_instructions, code, Program.run_normalAll (.refl _ ∅) below (Nat.le_refl _)]
  exact (Statement.run_codeAll l.statements (.initial _)).mpr executed

theorem eq_of_ended {u front rest : List Token} {e e' : Token} (ends : e'.kind = .endOfInput)
    (unended : ∀ t ∈ front, t.kind ≠ .endOfInput) (same : u ++ e' :: rest = front ++ [e]) :
    u = front ∧ e' = e := by
  obtain ⟨more, rfl, last⟩ | ⟨more, rfl, last⟩ := List.append_eq_append_iff.mp same
  · cases more with
    | nil => exact ⟨by simp, (List.cons.inj last).1⟩
    | cons x more =>
      obtain ⟨rfl, -⟩ := List.cons.inj last
      exact absurd ends (unended e' (by simp))
  · cases more with
    | nil => exact ⟨by simp, (List.cons.inj last).1.symm⟩
    | cons x more => simp at last

/-- A source text that compiles is the text of a program, and its assembly, run from any register
contents, leaves in the return register what the program returns; where the program ends without a
return, it leaves that register alone. -/
theorem run_of_ofSource (built : Table.reference = .ok t) (valid : o.validate = .ok o)
    {source : String} (compiled : ofSource o t.control source = .ok r) :
    ∃ (l : StatementList) (e : Token) (st : Scanner × Symbols), e.kind = .endOfInput ∧
      Scanner.scan (.ofSource source, .empty) = .ok (l.program.yield ++ [e]) st ∧
      (∀ v, Statement.execute (fun _ => none) l.statements = .ok (some v) →
        ∀ regs, ∃ regs', r.assembly.run regs = some regs' ∧ regs' o.returnRegister = v) ∧
      (Statement.execute (fun _ => none) l.statements = .ok none →
        ∀ regs, ∃ regs', r.assembly.run regs = some regs' ∧
          regs' o.returnRegister = regs o.returnRegister) := by
  unfold ofSource at compiled
  split at compiled
  · cases compiled
  · rename_i tokens scanner symbols scanned
    obtain ⟨front, e, rfl, ends, proper⟩ := Scanner.scan_cases scanned
    have readable : Readable (front ++ [e]) := by
      refine readable_append.mpr ⟨fun t ht => (proper t ht).2, ?_⟩
      intro t ht literal
      rw [List.mem_singleton.mp ht, ends] at literal
      cases literal
    obtain ⟨a, registers, ran, allocated, generated⟩ := ofTokens_cases compiled
    obtain ⟨l, e', rest, ends', same, code⟩ := exists_program_of_run built readable ran
    obtain ⟨rfl, rfl⟩ := eq_of_ended ends' (fun t ht => (proper t ht).1) same.symm
    have apart := Options.apart_of_validate valid
    refine ⟨l, e', _, ends', scanned, ?_, ?_⟩
    · intro v executed regs
      exact Target.run_allocated apart allocated generated (run_normalized code executed) regs
    · intro executed regs
      exact Target.run_allocated apart allocated generated (run_normalized code executed) regs

/-- Three registers, two of them used again, for a variable that is assigned twice and the values in
between. -/
theorem run_of_ofSource_reusing :
    let o : Options := ⟨["t0", "t1", "t2"], "a0", false⟩
    let source := "int a; a = 2; a = (a - 7) * a; return a + 5;"
    ∃ t r, Table.reference = .ok t ∧ o.validate = .ok o ∧ ofSource o t.control source = .ok r ∧
      ∃ (l : StatementList) (e : Token) (st : Scanner × Symbols), e.kind = .endOfInput ∧
        Scanner.scan (.ofSource source, .empty) = .ok (l.program.yield ++ [e]) st ∧
        (∀ v, Statement.execute (fun _ => none) l.statements = .ok (some v) →
          ∀ regs, ∃ regs', r.assembly.run regs = some regs' ∧ regs' "a0" = v) ∧
        (Statement.execute (fun _ => none) l.statements = .ok none →
          ∀ regs, ∃ regs', r.assembly.run regs = some regs' ∧ regs' "a0" = regs "a0") := by
  intro o source
  have both : (do ofSource o (← Table.reference).control source).isOk = true := by decide +kernel
  obtain ⟨r, made⟩ := exists_of_isOk both
  obtain ⟨t, built, compiled⟩ := bind_eq_ok.mp made
  have valid : o.validate = .ok o := by decide +kernel
  exact ⟨t, r, built, valid, compiled, run_of_ofSource built valid compiled⟩

end Compilation

end Straightline
