import Straightline.Observer.Subscriber
import Straightline.Proofs.Correctness

/-!
# Declared types and undeclared uses

What the typing observer finds in a program (`Typing.tell_program`): a name has the type that it is
declared with, wherever the declaration stands, and a use is reported when no statement before its
own declares the name. Scanned into an empty symbol table, a source text that parses leaves an entry
for each of its identifiers (`Subscriber.followSource_typing`).
-/
namespace Straightline

open Grammar

/-! ### What a program declares -/

namespace Statement

def declares : Statement → String → Bool
  | declaration _ name, x => name.token.lexeme = x
  | assignment _ _ _, _ => false
  | returning _ _, _ => false

/-- The uses of names that no statement before their own declares, given the statements before
these. -/
def undeclaredUses (earlier : List Statement) : List Statement → List Token
  | [] => []
  | s :: rest =>
    (s.references.filter fun id => !earlier.any (·.declares id.lexeme)) ++
      undeclaredUses (s :: earlier) rest

theorem exists_leaf_of_declares {s : Statement} {x : String} (h : s.declares x = true) :
    ∃ id ∈ s.forest.yield, id.kind = .identifier ∧ id.lexeme = x := by
  cases s with
  | declaration type name =>
    refine ⟨name.token, ?_, name.kind, by simpa [declares] using h⟩
    show name.token ∈ [type.token, name.token]
    simp
  | assignment name equals value => cases h
  | returning word value => cases h

end Statement

def Token.undeclared (id : Token) : Error :=
  .undeclaredIdentifier id.lexeme id.line id.column

/-! ### The symbol table -/

def SymbolEntry.declared (e : SymbolEntry) (declares : Bool) : SymbolEntry :=
  if declares then { e with ty := some .int } else e

namespace Symbols

variable {table table' : Symbols} {earlier : List Statement} {s : Statement} {x : String}

def reports (table : Symbols) (uses : List Token) : List Error :=
  (uses.filter fun id => (table.typeOf? id.lexeme).isNone).map Token.undeclared

theorem reports_append (table : Symbols) (uses uses' : List Token) :
    table.reports (uses ++ uses') = table.reports uses ++ table.reports uses' := by
  simp [reports]

theorem reverse_reports_singleton (table : Symbols) (id : Token) :
    (table.reports [id]).reverse = table.reports [id] := by
  cases declared : table.typeOf? id.lexeme <;> simp [reports, declared]

/-- The table has the types that statements declare. -/
def Records (table : Symbols) (earlier : List Statement) : Prop :=
  ∀ x, (table.typeOf? x).isSome = earlier.any (·.declares x)

/-- A table whose entries are those of another, with the types that are declared. -/
def Declares (table table' : Symbols) (declares : String → Bool) : Prop :=
  ∀ x, table'.get? x = (table.get? x).map (·.declared (declares x))

theorem Declares.trans {table'' : Symbols} {first second : String → Bool}
    (h : table.Declares table' first) (h' : table'.Declares table'' second) :
    table.Declares table'' fun x => first x || second x := by
  intro x
  rw [h' x, h x, Option.map_map]
  congr 1
  funext e
  cases left : first x <;> cases right : second x <;>
    simp [SymbolEntry.declared, left, right]

theorem Records.reports_eq (records : table.Records earlier) (uses : List Token) :
    table.reports uses =
      (uses.filter fun id => !earlier.any (·.declares id.lexeme)).map Token.undeclared := by
  unfold reports
  congr 2
  funext id
  rw [← records id.lexeme, Option.not_isSome]

theorem Records.cons (records : table.Records earlier) (declares : table.Declares table' s.declares)
    (known : ∀ x, s.declares x = true → (table.get? x).isSome = true) :
    table'.Records (s :: earlier) := by
  intro x
  have before := records x
  rw [typeOf?] at before
  rw [typeOf?, declares x, List.any_cons, ← before]
  cases declared : s.declares x with
  | true =>
    obtain ⟨e, there⟩ := Option.isSome_iff_exists.mp (known x declared)
    simp [there, SymbolEntry.declared]
  | false => cases table.get? x <;> simp [SymbolEntry.declared]

theorem mem_toList_iff {e : SymbolEntry} : e ∈ table.toList ↔ ∃ x, table.get? x = some e := by
  simp [toList, get?, Std.TreeMap.mem_toList_iff_getElem?_eq_some]

theorem nodup_names (named : ∀ x e, table.get? x = some e → e.name = x) :
    (table.toList.map (·.name)).Nodup := by
  have keys : table.toList.map (·.name) = table.entries.keys := by
    rw [toList, List.map_map, ← Std.TreeMap.map_fst_toList_eq_keys]
    refine List.map_congr_left ?_
    rintro ⟨x, e⟩ member
    exact named x e (Std.TreeMap.mem_toList_iff_getElem?_eq_some.mp member)
  rw [keys, List.Nodup]
  refine table.entries.distinct_keys.imp ?_
  rintro x y differ rfl
  simp at differ

end Symbols

/-! ### The typing observer -/

namespace Typing

variable {table : Symbols} {entries : List (Attributed Ty)} {findings : List Error}

theorem observe_erase (m : Move) : observe m.erase = observe m := by
  cases m <;> rfl

theorem lookup_eq (id : Token) (stack : AttributeStack Ty) :
    lookup id (table, ⟨stack, findings, true⟩) =
      .ok (table.typeOf? id.lexeme) (table, ⟨stack, table.reports [id] ++ findings, true⟩) := by
  cases declared : table.typeOf? id.lexeme <;>
    simp [lookup, bind, EStateM.bind, symbols, declared, report, pure, EStateM.pure,
      Symbols.reports, Token.undeclared]

theorem exists_declare {id : Token} (known : (table.get? id.lexeme).isSome = true)
    (stack : AttributeStack Ty) :
    ∃ table', declare id (some .int) (table, ⟨stack, findings, true⟩) =
        .ok () (table', ⟨stack, findings, true⟩) ∧
      table.Declares table' fun x => id.lexeme = x := by
  obtain ⟨table', set⟩ : ∃ table', table.setType? id.lexeme (some .int) = some table' := by
    obtain ⟨e, there⟩ := Option.isSome_iff_exists.mp known
    simp [Symbols.setType?, Symbols.modify?, there]
  refine ⟨table', ?_, ?_⟩
  · simp only [declare, bind, EStateM.bind, symbols, set, setSymbols, if_true]
  · intro x
    rw [Symbols.get?_of_modify? set]
    by_cases same : id.lexeme = x
    · subst same
      simp [SymbolEntry.declared]
    · simp [same, SymbolEntry.declared]

theorem observe_shift (id : Token) :
    observe (.shift 0 id) (table, ⟨⟨entries⟩, findings, true⟩) =
      .ok () (table, ⟨⟨⟨.token id, none⟩ :: entries⟩, findings, true⟩) := rfl

theorem observe_name (id : Token) {v : Option Ty} :
    observe (.reduce 0 ⟨14, .factor, [.terminal .identifier]⟩)
        (table, ⟨⟨⟨.token id, v⟩ :: entries⟩, findings, true⟩) =
      .ok () (table, ⟨⟨⟨.nonTerminal .factor, table.typeOf? id.lexeme⟩ :: entries⟩,
        table.reports [id] ++ findings, true⟩) :=
  eStateM_bind_eq_ok.mpr ⟨_, _, lookup_eq id ⟨entries⟩, rfl⟩

theorem observe_assignment (id : Token) {v : Option Ty} {y z : Attributed Ty} :
    observe
        (.reduce 0 ⟨6, .statement, [.terminal .identifier, .terminal .assign, .nonTerminal .expr]⟩)
        (table, ⟨⟨z :: y :: ⟨.token id, v⟩ :: entries⟩, findings, true⟩) =
      .ok () (table, ⟨⟨⟨.nonTerminal .statement, table.typeOf? id.lexeme⟩ :: entries⟩,
        table.reports [id] ++ findings, true⟩) :=
  eStateM_bind_eq_ok.mpr ⟨_, _, lookup_eq id ⟨entries⟩, rfl⟩

theorem observe_declaration {id : Token} (known : (table.get? id.lexeme).isSome = true)
    (entries : List (Attributed Ty)) (findings : List Error) :
    ∃ table', observe
        (.reduce 0 ⟨4, .statement, [.nonTerminal .declarator, .terminal .identifier]⟩)
        (table, ⟨⟨⟨.token id, none⟩ :: ⟨.nonTerminal .declarator, some .int⟩ :: entries⟩, findings,
          true⟩) =
        .ok () (table', ⟨⟨⟨.nonTerminal .statement, some .int⟩ :: entries⟩, findings, true⟩) ∧
      table.Declares table' fun x => id.lexeme = x := by
  obtain ⟨table', made, declares⟩ := exists_declare known ⟨entries⟩
  refine ⟨table', eStateM_bind_eq_ok.mpr
    ⟨some .int, (table', ⟨⟨entries⟩, findings, true⟩), ?_, rfl⟩, declares⟩
  show (declare id (some .int) >>= fun _ => pure (some Ty.int))
    (table, ⟨⟨entries⟩, findings, true⟩) = _
  exact eStateM_bind_eq_ok.mpr ⟨(), _, made, rfl⟩

theorem observe_arithmetic (op : Operator) {x y z : Attributed Ty} :
    observe (.reduce 0 op.production) (table, ⟨⟨z :: y :: x :: entries⟩, findings, true⟩) =
      .ok () (table, ⟨⟨⟨.nonTerminal op.level, x.value⟩ :: entries⟩, findings, true⟩) := by
  cases op <;> rfl

theorem tell_expression {n : NonTerminal} (e : Expression n) (table : Symbols)
    (entries : List (Attributed Ty)) (findings : List Error) :
    ∃ ty, observe.tell e.forest.moves (table, ⟨⟨entries⟩, findings, true⟩) =
      .ok () (table, ⟨⟨⟨.nonTerminal n, ty⟩ :: entries⟩,
        (table.reports e.references).reverse ++ findings, true⟩) := by
  induction e generalizing entries findings with
  | arithmetic op lhs sign rhs ihl ihr =>
    obtain ⟨left, toldl⟩ := ihl entries findings
    obtain ⟨right, toldr⟩ := ihr (⟨.token sign.token, none⟩ :: ⟨.nonTerminal op.level, left⟩ ::
      entries) ((table.reports lhs.references).reverse ++ findings)
    refine ⟨left, ?_⟩
    show observe.tell ((lhs.forest.append (.token sign.token sign.kind rhs.forest)).moves ++
      [.reduce 0 op.production]) _ = _
    rw [Forest.moves_append, List.append_assoc, Observer.tell_append toldl, Forest.moves,
      List.cons_append, Observer.tell_cons (observe_shift sign.token), Observer.tell_append toldr,
      Observer.tell_cons (observe_arithmetic op)]
    show EStateM.Result.ok () _ = _
    simp [Expression.references, Symbols.reports_append]
  | ofTerm inner ih =>
    obtain ⟨ty, told⟩ := ih entries findings
    refine ⟨ty, ?_⟩
    show observe.tell (inner.forest.moves ++ [.reduce 0 _]) _ = _
    rw [Observer.tell_append told]
    rfl
  | ofFactor inner ih =>
    obtain ⟨ty, told⟩ := ih entries findings
    refine ⟨ty, ?_⟩
    show observe.tell (inner.forest.moves ++ [.reduce 0 _]) _ = _
    rw [Observer.tell_append told]
    rfl
  | parenthesized left inner right ih =>
    obtain ⟨ty, told⟩ := ih (⟨.token left.token, none⟩ :: entries) findings
    refine ⟨ty, ?_⟩
    show observe.tell (.shift 0 left.token ::
      ((inner.forest.append (.token right.token right.kind .nil)).moves ++ [.reduce 0 _])) _ = _
    rw [Observer.tell_cons (observe_shift left.token), Forest.moves_append, List.append_assoc,
      Observer.tell_append told]
    rfl
  | name v =>
    refine ⟨table.typeOf? v.token.lexeme, ?_⟩
    show observe.tell [.shift 0 v.token, .reduce 0 _] _ = _
    rw [Observer.tell_cons (observe_shift v.token), Observer.tell_cons (observe_name v.token)]
    show EStateM.Result.ok () _ = _
    simp [Expression.references, Symbols.reverse_reports_singleton]
  | literal n => exact ⟨some .int, rfl⟩

theorem tell_statement (s : Statement) {table : Symbols}
    (known : ∀ x, s.declares x = true → (table.get? x).isSome = true)
    (entries : List (Attributed Ty)) (findings : List Error) :
    ∃ ty table', observe.tell s.forest.moves (table, ⟨⟨entries⟩, findings, true⟩) =
        .ok () (table', ⟨⟨⟨.nonTerminal .statement, ty⟩ :: entries⟩,
          (table.reports s.references).reverse ++ findings, true⟩) ∧
      table.Declares table' s.declares := by
  cases s with
  | declaration type name =>
    have there := known name.token.lexeme (by simp [Statement.declares])
    obtain ⟨table', made, declares⟩ := observe_declaration there entries findings
    refine ⟨some .int, table', ?_, declares⟩
    show observe.tell [.shift 0 type.token, .reduce 0 _, .shift 0 name.token, .reduce 0 _] _ = _
    rw [Observer.tell_cons (observe_shift type.token), Observer.tell_cons rfl]
    exact (Observer.tell_cons (observe_shift name.token)).trans (Observer.tell_cons made)
  | assignment name equals value =>
    obtain ⟨ty, told⟩ := tell_expression value table
      (⟨.token equals.token, none⟩ :: ⟨.token name.token, none⟩ :: entries) findings
    refine ⟨table.typeOf? name.token.lexeme, table, ?_, fun x => by
      simp [Statement.declares, SymbolEntry.declared]⟩
    show observe.tell (.shift 0 name.token :: .shift 0 equals.token ::
      (value.forest.moves ++ [.reduce 0 _])) _ = _
    rw [Observer.tell_cons (observe_shift name.token),
      Observer.tell_cons (observe_shift equals.token), Observer.tell_append told,
      Observer.tell_cons (observe_assignment name.token)]
    show EStateM.Result.ok () _ = _
    simp [Statement.references, Symbols.reports_append, Symbols.reverse_reports_singleton]
  | returning word value =>
    obtain ⟨ty, told⟩ := tell_expression value table (⟨.token word.token, none⟩ :: entries) findings
    refine ⟨ty, table, ?_, fun x => by simp [Statement.declares, SymbolEntry.declared]⟩
    show observe.tell (.shift 0 word.token :: (value.forest.moves ++ [.reduce 0 _])) _ = _
    rw [Observer.tell_cons (observe_shift word.token), Observer.tell_append told]
    rfl

/-- Behind earlier statements whose declarations are in the table, a statement list reports the
uses that neither they nor its own statements so far declare. -/
theorem tell_statements (l : StatementList) {table : Symbols} {earlier : List Statement}
    (records : table.Records earlier)
    (known : ∀ s ∈ l.statements, ∀ x, s.declares x = true → (table.get? x).isSome = true)
    (entries : List (Attributed Ty)) (findings : List Error) :
    ∃ ty table', observe.tell l.forest.moves (table, ⟨⟨entries⟩, findings, true⟩) =
        .ok () (table', ⟨⟨⟨.nonTerminal .statementList, ty⟩ :: entries⟩,
          ((Statement.undeclaredUses earlier l.statements).map Token.undeclared).reverse ++
            findings, true⟩) ∧
      table.Declares table' fun x => l.statements.any (·.declares x) := by
  induction l generalizing table earlier entries findings with
  | last s semicolon =>
    obtain ⟨ty, table', told, declares⟩ :=
      tell_statement s (known s List.mem_cons_self) entries findings
    refine ⟨ty, table', ?_, by simpa [StatementList.statements] using declares⟩
    show observe.tell ((s.forest.append (.token semicolon.token semicolon.kind .nil)).moves ++
      [.reduce 0 _]) _ = _
    rw [Forest.moves_append, List.append_assoc, Observer.tell_append told, records.reports_eq]
    simp only [StatementList.statements, Statement.undeclaredUses, List.append_nil]
    rfl
  | more s semicolon rest ih =>
    obtain ⟨ty, table', told, declares⟩ :=
      tell_statement s (known s List.mem_cons_self) entries findings
    have known' : ∀ s' ∈ rest.statements, ∀ x, s'.declares x = true →
        (table'.get? x).isSome = true := by
      intro s' member x declared
      rw [declares x, Option.isSome_map]
      exact known s' (List.mem_cons_of_mem s member) x declared
    -- the rest is read with the declaration of `s`, if it is one, in the table
    obtain ⟨_, table'', told', declares'⟩ := ih
      (records.cons declares (known s List.mem_cons_self)) known'
      (⟨.token semicolon.token, none⟩ :: ⟨.nonTerminal .statement, ty⟩ :: entries)
      ((table.reports s.references).reverse ++ findings)
    refine ⟨ty, table'', ?_, by simpa [StatementList.statements] using declares.trans declares'⟩
    show observe.tell
      ((s.forest.append (.token semicolon.token semicolon.kind rest.forest)).moves ++
        [.reduce 0 _]) _ = _
    rw [Forest.moves_append, List.append_assoc, Observer.tell_append told, Forest.moves,
      List.cons_append, Observer.tell_cons (observe_shift semicolon.token),
      Observer.tell_append told', Observer.tell_cons rfl, records.reports_eq]
    show EStateM.Result.ok () _ = _
    simp [StatementList.statements, Statement.undeclaredUses, AttributeStack.push]

/-- The observer that is told the moves of a program's tree, which in a run have states, with a
table that has no types yet. -/
theorem tell_program {l : StatementList} {ms : List Move}
    (made : l.program.moves = ms.map Move.erase) {table : Symbols} (untyped : table.Records [])
    (known : ∀ s ∈ l.statements, ∀ x, s.declares x = true → (table.get? x).isSome = true)
    (state : Nat) :
    ∃ table', observe.tell (ms ++ [.accept state]) (table, ⟨.empty, [], true⟩) =
        .ok () (table', ⟨.empty,
          ((Statement.undeclaredUses [] l.statements).map Token.undeclared).reverse, true⟩) ∧
      table.Declares table' fun x => l.statements.any (·.declares x) := by
  obtain ⟨ty, table', told, declares⟩ := tell_statements l untyped known [] []
  refine ⟨table', ?_, declares⟩
  rw [← Observer.tell_erase observe_erase, List.map_append, ← made]
  show observe.tell (l.forest.moves ++ [.reduce 0 _] ++ [.accept 0]) (table, ⟨⟨[]⟩, [], true⟩) = _
  rw [List.append_assoc, Observer.tell_append told, List.append_nil]
  rfl

end Typing

/-! ### Scanned tables -/

namespace Symbols

variable {table : Symbols} {tokens : List Token}

/-- The table has the identifiers among given tokens, without type and value. -/
def Lists (table : Symbols) (tokens : List Token) : Prop :=
  ∀ x e, table.get? x = some e ↔
    e = ⟨x, none, none⟩ ∧ ∃ id ∈ tokens, id.kind = .identifier ∧ id.lexeme = x

theorem lists_empty : empty.Lists [] := by
  intro x e
  simp

theorem Lists.cons (lists : table.Lists tokens) (t : Token) :
    (if t.kind = .identifier then table.add t.lexeme else table).Lists (t :: tokens) := by
  intro x e
  split
  · rename_i identifier
    rw [get?_add]
    split
    · rename_i new
      obtain ⟨rfl, -⟩ := new
      simp [identifier, eq_comm]
    · rename_i old
      rw [lists x e]
      refine and_congr_right fun _ => ⟨?_, ?_⟩
      · rintro ⟨id, member, named⟩
        exact ⟨id, List.mem_cons_of_mem t member, named⟩
      · rintro ⟨id, member, kind, rfl⟩
        rcases List.mem_cons.mp member with rfl | member
        · -- the name is in the table already, and so among the earlier tokens
          obtain ⟨e', there⟩ := Option.ne_none_iff_exists'.mp fun absent => old ⟨rfl, absent⟩
          exact ((lists _ e').mp there).2
        · exact ⟨id, member, kind, rfl⟩
  · rename_i other
    rw [lists x e]
    simp [other]

theorem Lists.untyped (lists : table.Lists tokens) : table.Records [] := by
  intro x
  cases there : table.get? x with
  | none => simp [typeOf?, there]
  | some e =>
    obtain ⟨rfl, -⟩ := (lists x e).mp there
    simp [typeOf?, there]

theorem Lists.get?_eq_some_iff (lists : table.Lists tokens) {table' : Symbols}
    {declares : String → Bool} (declared : table.Declares table' declares) {x : String}
    {e : SymbolEntry} :
    table'.get? x = some e ↔ e = ⟨x, if declares x then some .int else none, none⟩ ∧
      ∃ id ∈ tokens, id.kind = .identifier ∧ id.lexeme = x := by
  have typed : SymbolEntry.declared ⟨x, none, none⟩ (declares x) =
      ⟨x, if declares x then some .int else none, none⟩ := by
    cases declares x <;> rfl
  rw [declared x, Option.map_eq_some_iff]
  constructor
  · rintro ⟨e', there, rfl⟩
    obtain ⟨rfl, found⟩ := (lists x e').mp there
    exact ⟨typed, found⟩
  · rintro ⟨rfl, found⟩
    exact ⟨_, (lists x _).mpr ⟨rfl, found⟩, typed⟩

end Symbols

theorem Scanner.lists_of_scanFrom {line column : Nat} {done tokens : List Token}
    {symbols : Symbols} {st : Scanner × Symbols} {pieces : List Lexeme}
    (before : symbols.Lists done)
    (h : scanFrom line column done symbols pieces = .ok tokens st) : st.2.Lists tokens := by
  induction pieces generalizing line column done symbols with
  | nil =>
    cases h
    have ended := before.cons ⟨.endOfInput, "", line, column⟩
    rw [if_neg (by simp)] at ended
    simpa [Symbols.Lists] using ended
  | cons l rest ih =>
    unfold scanFrom at h
    dsimp only at h
    split at h
    · cases h
    · exact ih before h
    · rename_i k made
      exact ih (before.cons ⟨k, l.text, line, column⟩) h

/-! ### The run -/

/-- Scanned tokens that a run accepts are those of a program. -/
theorem Scanner.exists_program {t : Table} (built : Table.reference = .ok t) {source : String}
    {symbols : Symbols} {tokens : List Token} {st : Scanner × Symbols}
    (scanned : scan (.ofSource source, symbols) = .ok tokens st) {σ : Type} {o : Observer σ}
    {s s' : σ} (ran : t.control.run o tokens s = .ok () s') :
    ∃ (l : StatementList) (e : Token), e.kind = .endOfInput ∧ tokens = l.program.yield ++ [e] := by
  obtain ⟨front, e, rfl, -, proper⟩ := scan_cases scanned
  obtain ⟨f, e', rest, -, -, ends, same, -, -⟩ := (Control.returns_of_run ran).exists_forest
    augmented_reference.toRooted (Table.realizes_reference built)
  obtain ⟨rfl, rfl⟩ := Compilation.eq_of_ended ends (fun t ht => (proper t ht).inner) same.symm
  obtain ⟨l, rfl⟩ := Straightline.exists_program f fun t ht => (proper t ht).reads
  exact ⟨l, e', ends, rfl⟩

namespace Subscriber

theorem tell_typing {ms : List Move} {table table' : Symbols} {u u' : Typing}
    (h : Typing.observe.tell ms (table, u) = .ok () (table', u')) (w : Shared) :
    (Observer.all observe).tell ms ({ w with symbols := table }, [.typing u]) =
      .ok () ({ w with symbols := table' }, [.typing u']) := by
  refine Observer.tell_map (f := fun r => ({ w with symbols := r.1 }, [typing r.2])) ?_ h
  intro m r r' answered
  simp only [Observer.all, Observer.each, observe, answered]

/-- The run over the leaves of a program's tree with the typing observer alone, and a symbol table
that has the program's identifiers. -/
theorem follow_typing {t : Table} (built : Table.reference = .ok t) (l : StatementList) {e : Token}
    (ends : e.kind = .endOfInput) {w : Shared} (lists : w.symbols.Lists (l.program.yield ++ [e])) :
    ∃ symbols u, follow t.control (l.program.yield ++ [e]) (w, [.typing .empty]) =
        .ok () ({ w with symbols }, [.typing u]) ∧
      u.diagnostics = (Statement.undeclaredUses [] l.statements).map Token.undeclared ∧
      w.symbols.Declares symbols fun x => l.statements.any (·.declares x) := by
  have realizes := Table.realizes_reference built
  obtain ⟨ms, c, q, steps, accepts, made⟩ :=
    accepted_of_forest augmented_reference.toRooted realizes l.program ends []
  have enough := weighingReference.length_lt_stepBudget augmented_reference.numbered realizes
    (by decide) steps
  have known : ∀ s ∈ l.statements, ∀ x, s.declares x = true →
      (w.symbols.get? x).isSome = true := by
    intro s member x declared
    obtain ⟨id, leaf, identifier, rfl⟩ := Statement.exists_leaf_of_declares declared
    have inside : id ∈ l.program.yield ++ [e] := by
      show id ∈ l.forest.yield ++ [] ++ [e]
      simp [l.mem_yield_of_mem_statements member leaf]
    rw [(lists id.lexeme _).mpr ⟨rfl, id, inside, identifier, rfl⟩]
    rfl
  obtain ⟨symbols, told, declares⟩ := Typing.tell_program made lists.untyped known q
  have followed := Control.run_of_runFor (Control.runFor_of_accepted steps accepts
    (tell_typing told w) enough)
  exact ⟨symbols, _, followed, by simp [Typing.diagnostics], declares⟩

/-- Types and diagnostics of a source text that is scanned into an empty symbol table and parses,
with the typing observer alone. Its tokens are those of a program `l`. The table then has one entry
for each identifier among them, without a value, and with a type just when a statement of `l`
declares the name. The diagnostics are the uses of names that no statement before their own
declares, statement by statement; of an assignment the uses on its right come first, then the
target. -/
theorem followSource_typing {t : Table} (built : Table.reference = .ok t) {source : String}
    {journal : Journal} {r : Shared × List Subscriber}
    (parses : followSource t.control source (⟨.empty, journal⟩, []) = .ok () r) :
    ∃ tokens st, Scanner.scan (.ofSource source, .empty) = .ok tokens st ∧
      (∃ (l : StatementList) (e : Token), e.kind = .endOfInput ∧
        tokens = l.program.yield ++ [e]) ∧
      ∀ (l : StatementList) (e : Token), e.kind = .endOfInput → tokens = l.program.yield ++ [e] →
        ∃ symbols u,
          followSource t.control source (⟨.empty, journal⟩, [.typing .empty]) =
            .ok () (⟨symbols, journal⟩, [.typing u]) ∧
          (symbols.toList.map (·.name)).Nodup ∧
          (∀ entry, entry ∈ symbols.toList ↔ ∃ id ∈ tokens, id.kind = .identifier ∧
            entry = ⟨id.lexeme,
              if l.statements.any (·.declares id.lexeme) then some .int else none, none⟩) ∧
          u.diagnostics = (Statement.undeclaredUses [] l.statements).map fun id =>
            .undeclaredIdentifier id.lexeme id.line id.column := by
  unfold followSource at parses ⊢
  dsimp only at parses ⊢
  split at parses
  · cases parses
  · rename_i tokens scanner symbols scanned
    have lists := Scanner.lists_of_scanFrom Symbols.lists_empty scanned
    refine ⟨tokens, _, scanned, Scanner.exists_program built scanned parses, ?_⟩
    rintro l e ends rfl
    obtain ⟨symbols', u, followed, found, declares⟩ := follow_typing built l ends
      (w := ⟨symbols, journal⟩) lists
    refine ⟨symbols', u, followed, Symbols.nodup_names ?_, ?_, found⟩
    · intro x entry there
      rw [((lists.get?_eq_some_iff declares).mp there).1]
    · intro entry
      rw [Symbols.mem_toList_iff]
      constructor
      · rintro ⟨x, there⟩
        obtain ⟨rfl, id, member, identifier, rfl⟩ := (lists.get?_eq_some_iff declares).mp there
        exact ⟨id, member, identifier, rfl⟩
      · rintro ⟨id, member, identifier, rfl⟩
        exact ⟨_, (lists.get?_eq_some_iff declares).mpr ⟨rfl, id, member, identifier, rfl⟩⟩

/-- A name that is used before it is declared, declared twice and used in between, and names that
are never declared. -/
theorem followSource_typing_redeclared :
    let source := "x = y;\nint x;\nx = x + y;\nint x;\nreturn z;"
    let w : Shared := ⟨.empty, []⟩
    ∃ t r symbols u, Table.reference = .ok t ∧
      followSource t.control source (w, []) = .ok () r ∧
      followSource t.control source (w, [.typing .empty]) = .ok () (⟨symbols, []⟩, [.typing u]) ∧
      symbols.toList = [⟨"x", some .int, none⟩, ⟨"y", none, none⟩, ⟨"z", none, none⟩] ∧
      u.diagnostics = [.undeclaredIdentifier "y" 1 5, .undeclaredIdentifier "x" 1 1,
        .undeclaredIdentifier "y" 3 9, .undeclaredIdentifier "z" 5 8] ∧
      ∃ (l : StatementList) (e : Token) (st : Scanner × Symbols),
        Scanner.scan (.ofSource source, .empty) = .ok (l.program.yield ++ [e]) st ∧
        u.diagnostics = (Statement.undeclaredUses [] l.statements).map fun id =>
          .undeclaredIdentifier id.lexeme id.line id.column := by
  intro source w
  have both : (do
      let t ← Table.reference
      let followed := stateOf (followSource t.control source (w, [.typing .empty]))
      return ((EStateM.run' (followSource t.control source) (w, [])).isSome,
        followed.1.symbols.toList, followed.2.map fun s =>
          s.casesOn (·.diagnostics) (fun _ => []) (fun _ => []) (fun _ => []))) =
      (Except.ok (true, [⟨"x", some .int, none⟩, ⟨"y", none, none⟩, ⟨"z", none, none⟩],
        [[.undeclaredIdentifier "y" 1 5, .undeclaredIdentifier "x" 1 1,
          .undeclaredIdentifier "y" 3 9, .undeclaredIdentifier "z" 5 8]]) :
        Except Error (Bool × List SymbolEntry × List (List Error))) := by decide +kernel
  obtain ⟨t, built, both⟩ := bind_eq_ok.mp both
  obtain ⟨accepts, both⟩ := Prod.mk.inj (Except.ok.inj both)
  obtain ⟨entries, diagnostics⟩ := Prod.mk.inj both
  obtain ⟨_, r, parses⟩ := exists_of_isSome_run' accepts
  obtain ⟨tokens, st, scanned, ⟨l, e, ends, rfl⟩, all⟩ := followSource_typing built parses
  obtain ⟨symbols, u, followed, -, -, found⟩ := all l e ends rfl
  rw [followed] at entries diagnostics
  exact ⟨t, r, symbols, u, built, parses, followed, entries, (List.cons.inj diagnostics).1, l, e,
    st, scanned, found⟩

end Subscriber

end Straightline
