import Straightline.Proofs.BuiltTables
import Straightline.Proofs.Reference
import Straightline.Proofs.SlrTables

/-!
# Stacks over built tables

Along every run over a built table the states on the stack are a path of the automaton, labelled by
the symbols on it, and a reduction finds the body of its production on top. So a run never lacks a
symbol or a goto, whatever the grammar and the tokens are: all that it can fail for is a token
without an action, or the lack of a token (`Subscriber.follow_stacks`).
-/
namespace Straightline

open Grammar

/-- A stack whose states are a path of the automaton from the state before any symbol, with the
symbols of the frames as its labels. -/
def Labelled (t : Control) (g : Grammar) : List Frame → Prop
  | [] => g.StateAfter [] t.initial
  | frame :: below =>
    Labelled t g below ∧ g.Transition (t.state below) frame.symbol.symbol frame.state

/-- A reduction that finds the body of its production on top of the stack, and a state to enter. -/
def Reduces (t : Control) (c : Configuration) (p : Production) : Prop :=
  ∃ frames below q, c.stack = frames ++ below ∧ symbolsOf frames = p.body ∧
    t.goto (t.state below) p.head = some q ∧
    t.step c = .next (.reduce q p) ⟨⟨.nonTerminal p.head, q⟩ :: below, c.input⟩

/-- The errors that are the fault of the tokens: one of them has no action, or there are too few. -/
def FaultOf (tokens : List Token) (e : Error) : Prop :=
  (∃ q, ∃ a ∈ tokens, e = Control.unexpected q a) ∨ e = .unexpectedEnd

section Realized

variable {g : Grammar} {t : Control} {root : Production} {stack : List Frame} {c : Configuration}

theorem Path.labelled (first : g.start? = some root) (realizes : t.Realizes g)
    (path : Path g stack) : Labelled t g stack := by
  induction path with
  | nil => exact (stateAfter_iff first).mpr realizes.initial
  | @push frame stack i below member next state ih =>
    have before := (stateAfter_iff first).mpr (below.state realizes)
    rw [← after_concat] at state
    exact ⟨ih, _, before, (stateAfter_iff first).mpr state⟩

variable (numbered : g.Numbered) (realizes : t.Realizes g)
include numbered realizes

theorem Path.reduces (path : Path g c.stack) {a : Token} {rest : List Token} {p : Production}
    (ahead : c.input = a :: rest) (acts : t.action (t.state c.stack) a.kind = .reduce p) :
    Reduces t c p := by
  obtain ⟨stack, input⟩ := c
  cases ahead
  obtain ⟨-, -, frames, below, q, rfl, top, goes, -⟩ :=
    path.exists_reduction numbered realizes acts
  exact ⟨frames, below, q, rfl, top, goes, Control.step_reduce acts (pop?_append top below) goes⟩

theorem Path.faultOf (path : Path g c.stack) {e : Error} (fails : t.step c = .failed e) :
    FaultOf c.input e := by
  have effect := path.effect numbered realizes
  rw [fails] at effect
  cases effect with
  | @reject stack a rest => exact Or.inl ⟨_, a, List.mem_cons_self, rfl⟩
  | starve => exact Or.inr rfl

theorem Path.of_steps {ms : List Move} {c' : Configuration} (path : Path g c.stack)
    (steps : t.Steps ms c c') : Path g c'.stack := by
  induction steps with
  | refl => exact path
  | next first _ ih =>
    have effect := path.effect numbered realizes
    rw [first] at effect
    exact ih effect.path

/-- A run that tells nobody fails for a fault of its tokens alone. -/
theorem faultOf_returns {σ : Type} {o : Observer σ} {s s' : σ} (quiet : o.Quiet s)
    {tokens : List Token} {e : Error} (returned : t.Returns o tokens s (.error e s')) :
    FaultOf tokens e := by
  obtain ⟨n, ran⟩ := returned
  obtain ⟨ms, c, u, steps, told, ends⟩ := Control.runFor_cases ran
  obtain rfl : s = u := (EStateM.Result.ok.inj ((quiet.tell ms).symm.trans told)).2
  obtain ⟨shifted, consumed, -⟩ := steps.replace
  rcases ends with ⟨e', fails, ⟨⟩⟩ | ⟨q, -, answered⟩ | ⟨m, d, e', v, -, refused, -⟩
  · have path := Path.nil.of_steps numbered realizes steps
    rcases path.faultOf numbered realizes fails with ⟨q, a, ha, same⟩ | same
    · refine Or.inl ⟨q, a, ?_, same⟩
      rw [show tokens = shifted ++ c.input from consumed]
      exact List.mem_append_right shifted ha
    · exact Or.inr same
  · cases answered.trans (quiet _)
  · cases refused.symm.trans (quiet m)

end Realized

/-- Runs over the table of any grammar that has one. After any number of steps the stack is a path
of the automaton, and where the table asks for a reduction the body of the production is on top and
there is a goto for its head. A run without observers fails only for its tokens; one that is given
a budget may also run out of that. -/
theorem Subscriber.follow_stacks {rules : List (NonTerminal × List Symbol)} {t : Table}
    (built : Table.build (ofRules rules) = .ok t) (tokens : List Token) :
    (∀ ms c, t.control.Steps ms ⟨[], tokens⟩ c →
      Labelled t.control (ofRules rules) c.stack ∧
      ∀ a rest p, c.input = a :: rest →
        t.control.action (t.control.state c.stack) a.kind = .reduce p → Reduces t.control c p) ∧
    ∀ w : Shared,
      (∀ e s, t.control.Returns (Observer.all observe) tokens (w, []) (.error e s) →
        FaultOf tokens e) ∧
      ∀ e s, follow t.control tokens (w, []) = .error e s →
        FaultOf tokens e ∨ e = .stepLimit (Control.stepBudget tokens) := by
  obtain ⟨-, -, ⟨root, first, -⟩, -⟩ := Table.build_cases built
  have numbered := numbered_ofRules rules
  have realizes := Table.realizes_of_build built numbered
  constructor
  · intro ms c steps
    have path := Path.nil.of_steps numbered realizes steps
    exact ⟨path.labelled first realizes, fun a rest p => path.reduces numbered realizes⟩
  · intro w
    have fails {e : Error} {s : Shared × List Subscriber} :
        t.control.Returns (Observer.all observe) tokens (w, []) (.error e s) → FaultOf tokens e :=
      faultOf_returns numbered realizes (Observer.quiet_all observe w)
    refine ⟨fun e s => fails, ?_⟩
    intro e s failed
    exact (Control.returns_of_run_error failed).imp_left fails

/-- Expressions in parentheses, with a start rule whose head is in a body and a production that
vanishes: after `((1` the closing parenthesis has no action. -/
theorem Subscriber.follow_stacks_nested :
    let rules : List (NonTerminal × List Symbol) :=
      [(.expr, [.nonTerminal .term]),
        (.term, [.nonTerminal .factor, .terminal .leftParen, .nonTerminal .expr,
          .terminal .rightParen]),
        (.term, [.terminal .intConst]), (.factor, [])]
    let tokens : List Token := [⟨.leftParen, "(", 1, 1⟩, ⟨.leftParen, "(", 1, 2⟩,
      ⟨.intConst, "1", 1, 3⟩, ⟨.rightParen, ")", 1, 4⟩]
    ∃ t ms c e, Table.build (ofRules rules) = .ok t ∧ t.control.Steps ms ⟨[], tokens⟩ c ∧
      t.control.step c = .failed e ∧ Labelled t.control (ofRules rules) c.stack ∧
      FaultOf tokens e := by
  intro rules tokens
  have fails : (do
      match (← Table.build (ofRules rules)).control.runFor Observer.silent 7 ⟨[], tokens⟩ () with
      | some (.error _ _) => .ok true
      | some (.ok _ _) => .ok false
      | none => .ok false) = (Except.ok true : Except Error Bool) := by decide +kernel
  obtain ⟨t, built, fails⟩ := bind_eq_ok.mp fails
  obtain ⟨paths, faults⟩ := follow_stacks built tokens
  split at fails
  · rename_i e u ran
    obtain ⟨ms, c, -, steps, -, ⟨e', failed, -⟩ | ⟨q, -, ⟨⟩⟩ | ⟨m, d, e', v, -, ⟨⟩, -⟩⟩ :=
      Control.runFor_cases ran
    have returned : t.control.Returns (Observer.all observe) tokens (⟨.empty, []⟩, []) _ :=
      ⟨_, Control.runFor_of_failed steps failed ((Observer.quiet_all observe _).tell ms)
        (Nat.lt_succ_self _)⟩
    exact ⟨t, ms, c, e', built, steps, failed, (paths ms c steps).1, (faults _).1 e' _ returned⟩
  · cases fails
  · cases fails

end Straightline
