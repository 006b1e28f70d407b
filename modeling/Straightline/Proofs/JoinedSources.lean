import Straightline.Proofs.DeclaredTypes
import Straightline.Proofs.FirstReturn
import Straightline.Proofs.Outcomes
import Straightline.Proofs.RenamedRegisters
import Straightline.Proofs.SourceTokens

/-!
# Source texts one behind another

Two source texts with a line end between them are cut and scanned one by one, and what each of them
is parsed as makes one program. Where the first returns, nothing of the second is in the normal code
but the number that added temporaries start from, and registers do not depend on that
(`Compilation.ofSource_joined`).
-/
namespace Straightline

open Grammar

/-! ### Cutting and scanning -/

namespace Lexeme

open Scanner

variable {l : Lexeme} {rest : List Char} {pieces further : List Lexeme}

theorem EndsBefore.append_newline (ends : l.EndsBefore rest) (more : List Char) :
    l.EndsBefore (rest ++ '\n' :: more) := by
  cases l with
  | newline | blank c | mark kind c | stray c => trivial
  | word text | digits text =>
    cases rest with
    | nil =>
      rintro c ⟨⟩
      rfl
    | cons d rest => exact ends

theorem Apart.append_newline (h : Apart pieces) (h' : Apart further) :
    Apart (pieces ++ newline :: further) := by
  induction pieces with
  | nil => exact ⟨trivial, trivial, h'⟩
  | cons l rest ih =>
    obtain ⟨formed, ends, apart⟩ := h
    have longer := ends.append_newline (textOf further)
    refine ⟨formed, ?_, ih apart⟩
    show l.EndsBefore (textOf (rest ++ newline :: further))
    rw [textOf_append]
    exact longer

theorem split_newline (source more : List Char) :
    split (source ++ '\n' :: more) = split source ++ newline :: split more := by
  have apart := (apart_split source).append_newline (apart_split more)
  have whole : textOf (split source ++ newline :: split more) = source ++ '\n' :: more := by
    rw [textOf_append, textOf_cons, textOf, split_text, textOf, split_text]
    rfl
  rw [← whole]
  exact split_of_apart apart

theorem tokensAfter_append (before : List Char) (pieces further : List Lexeme) :
    tokensAfter before (pieces ++ further) =
      tokensAfter before pieces ++ tokensAfter (before ++ textOf pieces) further := by
  induction pieces generalizing before with
  | nil => simp [tokensAfter]
  | cons l rest ih => simp [tokensAfter, ih]

theorem map_kind_tokensAfter (before : List Char) (pieces : List Lexeme) :
    (tokensAfter before pieces).map (·.kind) = pieces.filterMap spells? := by
  induction pieces generalizing before with
  | nil => rfl
  | cons l rest ih =>
    rw [tokensAfter, List.map_append, ih, List.filterMap_cons]
    cases l.spells? <;> rfl

end Lexeme

namespace Scanner

open Lexeme

variable {source more : String} {symbols symbols' : Symbols} {front back : List Token}
  {e e' : Token} {st st' : Scanner × Symbols}

theorem tokens_of_scan (scanned : scan (.ofSource source, symbols) = .ok (front ++ [e]) st) :
    (∀ l ∈ split source.toList, ¬ l.Faulty) ∧ front = tokensAfter [] (split source.toList) := by
  rcases faults_cases (split source.toList) with sound | ⟨before, l, rest, cut, sound, faulty⟩
  · obtain ⟨st', ok, -⟩ := scan_of_sound sound symbols
    rw [scanned] at ok
    exact ⟨sound, (List.append_inj' (EStateM.Result.ok.inj ok).1 rfl).1⟩
  · obtain ⟨fault, found⟩ := (exists_fault?_iff (textOf before)).mpr faulty
    obtain ⟨st', failed, -⟩ := scan_of_fault cut sound found symbols
    cases scanned.symm.trans failed

/-- Behind a line end a text has the tokens that it has alone, in other places. -/
theorem scan_joined (first : scan (.ofSource source, symbols) = .ok (front ++ [e]) st)
    (second : scan (.ofSource more, symbols') = .ok (back ++ [e']) st') :
    ∃ back' e'' st'', scan (.ofSource (source ++ "\n" ++ more), symbols) =
        .ok (front ++ back' ++ [e'']) st'' ∧
      back'.map (·.kind) = back.map (·.kind) ∧ e''.kind = .endOfInput := by
  obtain ⟨sound, rfl⟩ := tokens_of_scan first
  obtain ⟨sound', rfl⟩ := tokens_of_scan second
  have cut : split (source ++ "\n" ++ more).toList =
      split source.toList ++ newline :: split more.toList := by
    rw [← split_newline]
    simp
  have both : ∀ l ∈ split (source ++ "\n" ++ more).toList, ¬ l.Faulty := by
    rw [cut]
    intro l hl
    rcases List.mem_append.mp hl with hl | hl
    · exact sound l hl
    · rcases List.mem_cons.mp hl with rfl | hl
      · exact id
      · exact sound' l hl
  obtain ⟨st'', scanned, -⟩ := scan_of_sound both symbols
  rw [cut, tokensAfter_append] at scanned
  refine ⟨_, _, st'', scanned, ?_, rfl⟩
  rw [map_kind_tokensAfter, map_kind_tokensAfter]
  rfl

end Scanner

/-! ### Trees -/

namespace StatementList

def append : StatementList → StatementList → StatementList
  | last s semicolon, other => more s semicolon other
  | more s semicolon rest, other => more s semicolon (rest.append other)

theorem statements_append (l other : StatementList) :
    (l.append other).statements = l.statements ++ other.statements := by
  induction l with
  | last s semicolon => rfl
  | more s semicolon rest ih => simp [append, statements, ih]

theorem yield_append (l other : StatementList) :
    (l.append other).program.yield = l.program.yield ++ other.program.yield := by
  simp only [yield_program]
  induction l with
  | last s semicolon =>
    show (s.forest.append (.token semicolon.token semicolon.kind other.forest)).yield ++ [] =
      (s.forest.append (.token semicolon.token semicolon.kind .nil)).yield ++ [] ++ _
    simp [Forest.yield]
  | more s semicolon rest ih =>
    show (s.forest.append (.token semicolon.token semicolon.kind (rest.append other).forest)).yield
        ++ [] =
      (s.forest.append (.token semicolon.token semicolon.kind rest.forest)).yield ++ [] ++ _
    simp [Forest.yield, ih]

end StatementList

theorem Statement.temporariesAll_append (l l' : List Statement) :
    temporariesAll (l ++ l') = temporariesAll l + temporariesAll l' := by
  induction l with
  | nil => simp [temporariesAll]
  | cons s rest ih => simp [temporariesAll, ih, Nat.add_assoc]

/-- Statements behind a return raise the numbers of the temporaries that normal form adds, and
change nothing else. -/
theorem Statement.normalAll_append {l : List Statement} (returns : ∃ s ∈ l, s.isReturning = true)
    (l' : List Statement) :
    ∃ f, Variable.Faithful f ∧
      Instruction.normalAll (temporariesAll (l ++ l')) (codeAll 0 (l ++ l')) =
        (Instruction.normalAll (temporariesAll l) (codeAll 0 l)).map (Instruction.rename f) := by
  let raised (k : Nat) : Nat := if k < temporariesAll l then k else k + temporariesAll l'
  have injective : Function.Injective raised := by
    intro m n same
    simp only [raised] at same
    split at same <;> split at same <;> omega
  refine ⟨Variable.renumber raised, Variable.faithful_renumber injective, ?_⟩
  -- the temporaries of the code itself keep their numbers
  have kept : (codeAll 0 l).map (Instruction.rename (Variable.renumber raised)) = codeAll 0 l := by
    refine (List.map_congr_left fun i hi => Instruction.rename_of_fixed ?_).trans (List.map_id _)
    intro v hv
    have below := codeAll_below l 0 i hi v hv
    cases v with
    | named name => rfl
    | temp k =>
      have low : k < 0 + temporariesAll l := below
      rw [Nat.zero_add] at low
      simp [Variable.renumber, raised, low]
  have added (k : Nat) : Variable.renumber raised (.temp (temporariesAll l + k)) =
      .temp (temporariesAll l + temporariesAll l' + k) := by
    simp [Variable.renumber, raised]
    omega
  rw [temporariesAll_append, normalAll_codeAll_append returns, ← Instruction.normalAll_rename added,
    kept]

/-! ### Compilation -/

theorem Analysis.run_program {t : Table} (built : Table.reference = .ok t) (l : StatementList)
    {e : Token} (ends : e.kind = .endOfInput) {symbols : Symbols}
    (reads : Readable (l.program.yield ++ [e]))
    (known : ∀ id ∈ l.program.yield ++ [e], id.kind = .identifier →
      symbols.contains id.lexeme = true) :
    ∃ a, t.control.run observe (l.program.yield ++ [e]) (.ofSymbols symbols) = .ok () a ∧
      a.emitter.program =
        ⟨Statement.codeAll 0 l.statements, Statement.temporariesAll l.statements⟩ := by
  have realizes := Table.realizes_reference built
  obtain ⟨ms, c, q, steps, accepts, made⟩ :=
    accepted_of_forest augmented_reference.toRooted realizes l.program ends []
  have enough := weighingReference.length_lt_stepBudget augmented_reference.numbered realizes
    (by decide) steps
  obtain ⟨a, told, -⟩ := steps.exists_told
    (fun c m c' a knows first => Knows.observe realizes knows first)
    (knows_ofSymbols reads known)
  obtain ⟨a', answered⟩ : ∃ a', observe (.accept q) a = .ok () a' := ⟨_, observe_eq rfl rfl⟩
  have whole : observe.tell (ms ++ [.accept q]) (.ofSymbols symbols) = .ok () a' := by
    rw [Observer.tell_append told, Observer.tell_cons answered]
    rfl
  exact ⟨a', Control.run_of_runFor (Control.runFor_of_accepted steps accepts whole enough),
    program_of_tell made whole⟩

namespace Compilation

variable {o : Options} {t : Table}

theorem ofTokens_program (built : Table.reference = .ok t) {l : StatementList} {e : Token}
    {symbols : Symbols} (ends : e.kind = .endOfInput) (proper : ∀ t ∈ l.program.yield, t.Scanned)
    (known : ∀ id ∈ l.program.yield ++ [e], id.kind = .identifier →
      symbols.contains id.lexeme = true) :
    ∃ a, ofTokens o t.control (l.program.yield ++ [e]) symbols =
        ofAnalysis o (l.program.yield ++ [e]) a ∧
      a.emitter.program =
        ⟨Statement.codeAll 0 l.statements, Statement.temporariesAll l.statements⟩ ∧
      ∀ v ∈ a.emitter.program.instructions.flatMap (·.occurrences), v ≠ .named "" := by
  have reads := readable_of_scanned ends proper
  obtain ⟨a, ran, code⟩ := Analysis.run_program built l ends reads known
  refine ⟨a, ?_, code, named_of_run built ends proper reads ran⟩
  rw [ofTokens_def]
  dsimp only
  rw [ran]

theorem ofSource_program (built : Table.reference = .ok t) {source : String} {l : StatementList}
    {e : Token} {st : Scanner × Symbols}
    (scanned : Scanner.scan (.ofSource source, .empty) = .ok (l.program.yield ++ [e]) st) :
    ∃ a, ofSource o t.control source = ofAnalysis o (l.program.yield ++ [e]) a ∧
      a.emitter.program =
        ⟨Statement.codeAll 0 l.statements, Statement.temporariesAll l.statements⟩ ∧
      ∀ v ∈ a.emitter.program.instructions.flatMap (·.occurrences), v ≠ .named "" := by
  obtain ⟨scanner, symbols⟩ := st
  obtain ⟨front, e', same, ends, proper⟩ := Scanner.scan_cases scanned
  obtain ⟨rfl, last⟩ := List.append_inj' same rfl
  obtain rfl : e = e' := by simpa using last
  obtain ⟨a, made, further⟩ := ofTokens_program built ends proper (Scanner.contains_of_scan scanned)
  refine ⟨a, ?_, further⟩
  unfold ofSource
  rw [scanned]
  exact made

theorem ofAnalysis_rename {f : Variable → Variable} (faithful : Variable.Faithful f)
    (nonempty : o.registers ≠ []) (distinct : o.registers.Nodup) {tokens tokens' : List Token}
    {a a' : Analysis}
    (renamed : a'.emitter.program.normalize.program.instructions =
      a.emitter.program.normalize.program.instructions.map (Instruction.rename f)) :
    Agree (fun r r' => r'.assembly.lines.map (·.code) = r.assembly.lines.map (·.code))
      (ofAnalysis o tokens a) (ofAnalysis o tokens' a') := by
  obtain ⟨r, r', first, second, alike⟩ := Registers.renamed_ofNames nonempty distinct faithful
    a.emitter.program.normalize.program.instructions
  rw [← renamed] at second
  have generated := Target.generate_rename faithful ⟨o.returnRegister, o.comments⟩
    a.emitter.program.normalize.program.instructions alike
  rw [← renamed] at generated
  simp only [ofAnalysis, first, second]
  exact generated.bind fun _ _ same => .ok same

theorem exists_program_of_followSource (built : Table.reference = .ok t) {source : String}
    {journal : Journal} {r : Shared × List Subscriber}
    (parses : Subscriber.followSource t.control source (⟨.empty, journal⟩, []) = .ok () r) :
    ∃ (l : StatementList) (e : Token) (st : Scanner × Symbols), e.kind = .endOfInput ∧
      Scanner.scan (.ofSource source, .empty) = .ok (l.program.yield ++ [e]) st := by
  unfold Subscriber.followSource at parses
  dsimp only at parses
  split at parses
  · cases parses
  · rename_i tokens scanner symbols scanned
    obtain ⟨l, e, ends, rfl⟩ := Scanner.exists_program built scanned parses
    exact ⟨l, e, _, ends, scanned⟩

/-- A source text behind another one, both of which parse, adds its statements to the program. -/
theorem exists_program_of_joined {source more : String} {l l' : StatementList} {e e' : Token}
    {st st' : Scanner × Symbols}
    (first : Scanner.scan (.ofSource source, .empty) = .ok (l.program.yield ++ [e]) st)
    (second : Scanner.scan (.ofSource more, .empty) = .ok (l'.program.yield ++ [e']) st') :
    ∃ (further : StatementList) (last : Token) (st'' : Scanner × Symbols),
      Scanner.scan (.ofSource (source ++ "\n" ++ more), .empty) =
        .ok ((l.append further).program.yield ++ [last]) st'' := by
  obtain ⟨back, last, st'', joined, kinds, ends⟩ := Scanner.scan_joined first second
  obtain ⟨front, last', same, -, proper⟩ := Scanner.scan_cases joined
  obtain ⟨rfl, -⟩ := List.append_inj' same rfl
  have generated : reference.Generates .program (back.map (·.kind)) := by
    rw [kinds]
    exact generates_iff_exists_forest.mpr ⟨l'.program, rfl⟩
  obtain ⟨f, rfl⟩ := generates_iff_exists_forest.mp generated
  obtain ⟨further, rfl⟩ := exists_program f fun t ht =>
    (proper t (List.mem_append_right _ ht)).reads
  exact ⟨further, last, st'', by rw [StatementList.yield_append, joined]⟩

/-- What follows a source text with a return, on lines of its own, changes nothing of its code. Let
two texts parse, the first with a return in it, and let options be valid with different registers.
The first alone and both one behind the other compile to the same code, or run out of registers
both. -/
theorem ofSource_joined (built : Table.reference = .ok t) (valid : o.validate = .ok o)
    (distinct : o.registers.Nodup) {source more : String} {journal : Journal}
    {r r' : Shared × List Subscriber}
    (parses : Subscriber.followSource t.control source (⟨.empty, journal⟩, []) = .ok () r)
    (parses' : Subscriber.followSource t.control more (⟨.empty, journal⟩, []) = .ok () r')
    {tokens : List Token} {st : Scanner × Symbols}
    (scanned : Scanner.scan (.ofSource source, .empty) = .ok tokens st)
    (returns : ∃ a ∈ tokens, a.kind = .returnWord) :
    (∃ c c', ofSource o t.control source = .ok c ∧
      ofSource o t.control (source ++ "\n" ++ more) = .ok c' ∧
      c'.assembly.lines.map (·.code) = c.assembly.lines.map (·.code) ∧
      c'.assembly.lines.map (·.code.text) = c.assembly.lines.map (·.code.text)) ∨
    ∃ v v',
      ofSource o t.control source = .error (.registersExhausted v o.registers.length) ∧
      ofSource o t.control (source ++ "\n" ++ more) =
        .error (.registersExhausted v' o.registers.length) := by
  have nonempty := Options.registers_ne_nil valid
  obtain ⟨l, e, st₁, ends, first⟩ := exists_program_of_followSource built parses
  obtain ⟨l', e', st₂, -, second⟩ := exists_program_of_followSource built parses'
  obtain ⟨further, last, st₃, joined⟩ := exists_program_of_joined first second
  obtain ⟨rfl, -⟩ := EStateM.Result.ok.inj (scanned.symm.trans first)
  have returning : ∃ s ∈ l.statements, s.isReturning = true := by
    obtain ⟨a, member, word⟩ := returns
    rcases List.mem_append.mp member with inside | final
    · exact l.exists_returning inside word
    · rw [List.mem_singleton.mp final, ends] at word
      cases word
  obtain ⟨a, made, code, named⟩ := ofSource_program (o := o) built first
  obtain ⟨a', made', code', named'⟩ := ofSource_program (o := o) built joined
  obtain ⟨f, faithful, renamed⟩ := Statement.normalAll_append returning further.statements
  have agree : Agree (fun c c' => c'.assembly.lines.map (·.code) = c.assembly.lines.map (·.code))
      (ofSource o t.control source) (ofSource o t.control (source ++ "\n" ++ more)) := by
    rw [made, made']
    refine ofAnalysis_rename faithful nonempty distinct ?_
    rw [Program.normalize_instructions, Program.normalize_instructions, code, code',
      StatementList.statements_append]
    exact renamed
  have outcome := ofAnalysis_cases (l.program.yield ++ [e]) nonempty distinct named
  have outcome' := ofAnalysis_cases ((l.append further).program.yield ++ [last]) nonempty distinct
    named'
  rw [← made] at outcome
  rw [← made'] at outcome'
  -- each text compiles or runs out of registers, and they agree on which
  rcases outcome with ⟨c, compiled, -, -⟩ | ⟨v, failed⟩
  · rcases outcome' with ⟨c', compiled', -, -⟩ | ⟨v', failed'⟩
    · rw [compiled, compiled'] at agree
      cases agree with
      | ok same =>
        refine Or.inl ⟨c, c', compiled, compiled', same, ?_⟩
        simpa [Function.comp_def] using congrArg (List.map Code.text) same
    · rw [compiled, failed'] at agree
      cases agree
  · rcases outcome' with ⟨c', compiled', -, -⟩ | ⟨v', failed'⟩
    · rw [failed, compiled'] at agree
      cases agree
    · exact Or.inr ⟨v, v', failed, failed'⟩

/-- Immediates that are moved into temporaries, whose numbers the second text raises. -/
theorem ofSource_joined_raised :
    let o : Options := ⟨["t0", "t1", "t2"], "a0", true⟩
    let source := "x = (y - 4096) * 3;\nreturn x;"
    let more := "z = x * y;\nreturn z - 1;"
    let w : Shared := ⟨.empty, []⟩
    let code : List Code := [.li "t0" 4096, .arithmetic .sub "t1" "t2" "t0", .li "t0" 3,
      .arithmetic .mul "t2" "t1" "t0", .mv "t0" "t2", .mv "a0" "t0"]
    o.validate = .ok o ∧ o.registers.Nodup ∧ ∃ t r r' tokens st c c', Table.reference = .ok t ∧
      Subscriber.followSource t.control source (w, []) = .ok () r ∧
      Subscriber.followSource t.control more (w, []) = .ok () r' ∧
      Scanner.scan (.ofSource source, .empty) = .ok tokens st ∧
      (∃ a ∈ tokens, a.kind = .returnWord) ∧ ofSource o t.control source = .ok c ∧
      ofSource o t.control (source ++ "\n" ++ more) = .ok c' ∧
      c.assembly.lines.map (·.code) = code ∧ c'.assembly.lines.map (·.code) = code := by
  intro o source more w code
  have valid : o.validate = .ok o := by decide +kernel
  have distinct : o.registers.Nodup := by decide
  have words : (match Scanner.scan (.ofSource source, .empty) with
      | .ok tokens _ => tokens.any (·.kind = .returnWord)
      | .error _ _ => false) = true := by decide +kernel
  have all : (do
      let t ← Table.reference
      match Subscriber.followSource t.control source (w, []) with
      | .error e _ => .error e
      | .ok _ _ =>
        match Subscriber.followSource t.control more (w, []) with
        | .error e _ => .error e
        | .ok _ _ => do return (← ofSource o t.control source).assembly.lines.map (·.code)) =
      (Except.ok code : Except Error (List Code)) := by decide +kernel
  obtain ⟨t, built, all⟩ := bind_eq_ok.mp all
  cases parses : Subscriber.followSource t.control source (w, []) with
  | error e r =>
    rw [parses] at all
    cases all
  | ok _ r =>
    cases parses' : Subscriber.followSource t.control more (w, []) with
    | error e r' =>
      rw [parses, parses'] at all
      cases all
    | ok _ r' =>
      rw [parses, parses'] at all
      obtain ⟨c, compiled, same⟩ := bind_eq_ok.mp all
      cases scanned : Scanner.scan (.ofSource source, .empty) with
      | error e st =>
        rw [scanned] at words
        cases words
      | ok tokens st =>
        rw [scanned] at words
        have returns : ∃ a ∈ tokens, a.kind = .returnWord := by simpa using words
        rcases ofSource_joined built valid distinct parses parses' scanned returns with
          ⟨c₁, c', first, joined, codes, -⟩ | ⟨v, v', failed, -⟩
        · cases compiled.symm.trans first
          exact ⟨valid, distinct, t, r, r', tokens, st, c, c', built, parses, parses', rfl,
            returns, compiled, joined, Except.ok.inj same, codes.trans (Except.ok.inj same)⟩
        · cases compiled.symm.trans failed

end Compilation

end Straightline
