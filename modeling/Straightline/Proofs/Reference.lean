import Straightline.Observer.Subscriber
import Straightline.Proofs.Language

/-!
# The language of straight-line programs

The table of the reference grammar exists, and its runs accept exactly the programs: what the runs
of any realized automaton do, for this grammar. The grammar meets what that asks: its start rule is
its own, every non-terminal derives some tokens, and every reduction lowers the weight of the stack.
-/
namespace Straightline

namespace Grammar

def referenceStart : Production :=
  ⟨0, .start, [.nonTerminal .program]⟩

theorem augmented_reference : reference.Augmented referenceStart .program where
  numbered := numbered_ofRules _
  start := rfl
  body := rfl
  fresh := by decide
  single := by decide

theorem productive_reference : reference.Productive := by
  have factor : Forest reference [.nonTerminal .factor] :=
    .node ⟨14, .factor, [.terminal .identifier]⟩ (by decide) rfl
      (.token ⟨.identifier, "", 0, 0⟩ rfl .nil) .nil
  have term : Forest reference [.nonTerminal .term] :=
    .node ⟨12, .term, [.nonTerminal .factor]⟩ (by decide) rfl factor .nil
  have expr : Forest reference [.nonTerminal .expr] :=
    .node ⟨10, .expr, [.nonTerminal .term]⟩ (by decide) rfl term .nil
  have declarator : Forest reference [.nonTerminal .declarator] :=
    .node ⟨5, .declarator, [.terminal .intWord]⟩ (by decide) rfl
      (.token ⟨.intWord, "", 0, 0⟩ rfl .nil) .nil
  have statement : Forest reference [.nonTerminal .statement] :=
    .node ⟨7, .statement, [.terminal .returnWord, .nonTerminal .expr]⟩ (by decide) rfl
      (.token ⟨.returnWord, "", 0, 0⟩ rfl expr) .nil
  have statementList : Forest reference [.nonTerminal .statementList] :=
    .node ⟨3, .statementList, [.nonTerminal .statement, .terminal .semicolon]⟩ (by decide) rfl
      (statement.append (.token ⟨.semicolon, "", 0, 0⟩ rfl .nil)) .nil
  have program : Forest reference [.nonTerminal .program] :=
    .node ⟨1, .program, [.nonTerminal .statementList]⟩ (by decide) rfl statementList .nil
  intro n
  cases n with
  | start => exact ⟨.node referenceStart (by decide) rfl program .nil⟩
  | program => exact ⟨program⟩
  | statementList => exact ⟨statementList⟩
  | statement => exact ⟨statement⟩
  | declarator => exact ⟨declarator⟩
  | expr => exact ⟨expr⟩
  | term => exact ⟨term⟩
  | factor => exact ⟨factor⟩

/-- Weights for the reference grammar: a terminal weighs more than a factor, a factor more than a
term, and a term more than what else is built from it. -/
def weighingReference : reference.Weighing where
  weight
    | .terminal _ => 4
    | .nonTerminal .factor => 3
    | .nonTerminal .term => 2
    | .nonTerminal .program => 0
    | .nonTerminal _ => 1
  top := 4
  light := fun _ => Nat.le_refl 4
  lowers := by decide

end Grammar

theorem Table.exists_reference : ∃ t, Table.reference = .ok t :=
  exists_of_isOk (by decide +kernel)

theorem Table.realizes_reference {t : Table} (built : Table.reference = .ok t) :
    t.control.Realizes .reference :=
  realizes_of_build built (Grammar.numbered_ofRules _)

theorem Observer.quiet_all {ρ σ : Type} (o : Observer (ρ × σ)) (r : ρ) :
    (Observer.all o).Quiet (r, []) :=
  fun _ => rfl

/-- A run without observers ends for any tokens. It accepts when some of them, from the first on,
are a program with the end of input behind it. Otherwise it refuses the first token up to which the
tokens are not the start of such, where there is one, and else reports that the tokens ended. -/
theorem Subscriber.follow_reference :
    ∃ t, Table.reference = .ok t ∧ ∀ (tokens : List Token) (w : Shared),
      ∃ outcome, Subscriber.follow t.control tokens (w, []) = outcome ∧
        t.control.runFor (Observer.all Subscriber.observe) (Control.stepBudget tokens) ⟨[], tokens⟩
          (w, []) = some outcome ∧
        (outcome = .ok () (w, []) ↔
          ∃ u, u <+: tokens ∧ Grammar.reference.Sentence .program (u.map (·.kind))) ∧
        ((¬ ∃ u, u <+: tokens ∧ Grammar.reference.Sentence .program (u.map (·.kind))) →
          ((∃ u, u <+: tokens ∧ ¬ Grammar.reference.Starts .program (u.map (·.kind))) →
            ∃ u a rest q, tokens = u ++ a :: rest ∧
              (∀ v, v <+: u → Grammar.reference.Starts .program (v.map (·.kind))) ∧
              ¬ Grammar.reference.Starts .program ((u ++ [a]).map (·.kind)) ∧
              outcome = .error (.unexpectedToken q a.kind
                (if a.kind = .endOfInput then "$" else a.lexeme) a.line a.column) (w, [])) ∧
          ((∀ u, u <+: tokens → Grammar.reference.Starts .program (u.map (·.kind))) →
            outcome = .error .unexpectedEnd (w, []))) := by
  obtain ⟨t, built⟩ := Table.exists_reference
  refine ⟨t, built, ?_⟩
  intro tokens w
  obtain ⟨outcome, ran, cases⟩ := run_cases Grammar.augmented_reference
    (Table.realizes_reference built) Grammar.productive_reference Grammar.weighingReference
    (by decide) (Observer.quiet_all Subscriber.observe w) tokens
  refine ⟨outcome, Control.run_of_runFor ran, ran, ?_⟩
  obtain ⟨sentence, rfl⟩ | ⟨none, ⟨u, a, rest, q, rfl, starts, stuck, rfl⟩ | ⟨starts, rfl⟩⟩ := cases
  · exact ⟨iff_of_true rfl sentence, fun none => absurd sentence none⟩
  · refine ⟨iff_of_false (by simp) none, fun _ => ⟨fun _ => ?_, fun all => ?_⟩⟩
    · exact ⟨u, a, rest, q, rfl, fun v front => starts.of_prefix front, stuck, rfl⟩
    · exact absurd (all (u ++ [a]) ⟨rest, by simp⟩) stuck
  · refine ⟨iff_of_false (by simp) none, fun _ => ⟨?_, fun _ => rfl⟩⟩
    rintro ⟨u, front, stuck⟩
    exact absurd (starts.of_prefix front) stuck

end Straightline
