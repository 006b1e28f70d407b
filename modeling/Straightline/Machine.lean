import Straightline.Table

/-!
# The shift/reduce machine

A configuration is a stack of symbols with the states they led to, and the tokens ahead. A step
shifts a token, reduces by a production, accepts or fails; which one is for the table to say. An
observer is told every move, and ends the run when it refuses one. A run is given a number of
steps; with too few it has no outcome.
-/
namespace Straightline

/-- What an observer is told: a shift with the state it leaves, a reduction with the state it
enters, or acceptance. -/
inductive Move where
  | shift (state : Nat) (token : Token)
  | reduce (state : Nat) (production : Production)
  | accept (state : Nat)
  deriving DecidableEq, Repr

/-- An observer with state `σ`: it answers each move, and what it did before it refuses one stays
done. -/
abbrev Observer (σ : Type) := Move → EStateM Error σ Unit

namespace Observer

def silent {σ : Type} : Observer σ := fun _ => pure ()

/-- Tells observers in order, up to the first that refuses. They share `ρ`. -/
def each {ρ σ : Type} (o : Observer (ρ × σ)) (m : Move) :
    ρ → List σ → EStateM.Result Error (ρ × List σ) Unit
  | r, [] => .ok () (r, [])
  | r, s :: rest =>
    match o m (r, s) with
    | .error e (r, s) => .error e (r, s :: rest)
    | .ok () (r, s) =>
      match each o m r rest with
      | .error e (r, rest) => .error e (r, s :: rest)
      | .ok () (r, rest) => .ok () (r, s :: rest)

def all {ρ σ : Type} (o : Observer (ρ × σ)) : Observer (ρ × List σ) := fun m (r, states) =>
  each o m r states

end Observer

/-- A parse symbol and the state that it led to. -/
structure Frame where
  symbol : ParseSymbol
  state : Nat
  deriving DecidableEq, Repr

/-- The stack, top first, and the tokens ahead. -/
structure Configuration where
  stack : List Frame
  input : List Token
  deriving DecidableEq, Repr

/-- What a step leads to. -/
inductive Step where
  | next (move : Move) (c : Configuration)
  | accepted (state : Nat)
  | failed (e : Error)
  deriving DecidableEq, Repr

namespace Control

variable (t : Control)

def state : List Frame → Nat
  | [] => t.initial
  | frame :: _ => frame.state

/-- What is left of a stack without its top `n` frames, if it has so many. -/
def pop? : Nat → List Frame → Option (List Frame)
  | 0, stack => some stack
  | _ + 1, [] => none
  | n + 1, _ :: stack => pop? n stack

def reduce (c : Configuration) (p : Production) : Step :=
  match pop? p.body.length c.stack with
  | none => .failed (.invariant (.shortStack p c.stack.length))
  | some below =>
    match t.goto (t.state below) p.head with
    | none => .failed (.missingGoto (t.state below) p.head)
    | some state => .next (.reduce state p) ⟨⟨.nonTerminal p.head, state⟩ :: below, c.input⟩

/-- A token for which a state has no action; the end of input is shown by its name. -/
def unexpected (state : Nat) (token : Token) : Error :=
  let lexeme := if token.kind = .endOfInput then Kind.endOfInput.name else token.lexeme
  .unexpectedToken state token.kind lexeme token.line token.column

def step (c : Configuration) : Step :=
  match c.input with
  | [] => .failed .unexpectedEnd
  | token :: rest =>
    let state := t.state c.stack
    match t.action state token.kind with
    | .shift target => .next (.shift state token) ⟨⟨.token token, target⟩ :: c.stack, rest⟩
    | .reduce p => t.reduce c p
    | .accept => .accepted state
    | .error => .failed (unexpected state token)

variable {σ : Type} (o : Observer σ)

/-- A run of at most `n` steps from a configuration. -/
def runFor : Nat → Configuration → σ → Option (EStateM.Result Error σ Unit)
  | 0, _, _ => none
  | n + 1, c, s =>
    match t.step c with
    | .failed e => some (.error e s)
    | .accepted state => some (o (.accept state) s)
    | .next move c =>
      match o move s with
      | .error e s => some (.error e s)
      | .ok () s => runFor n c s

/-- More steps keep an outcome. -/
theorem runFor_of_le {n m : Nat} {c : Configuration} {s : σ}
    {outcome : EStateM.Result Error σ Unit} (h : t.runFor o n c s = some outcome) (le : n ≤ m) :
    t.runFor o m c s = some outcome := by
  induction n generalizing m c s with
  | zero => simp [runFor] at h
  | succ n ih =>
    obtain ⟨m, rfl⟩ : ∃ k, m = k + 1 := ⟨m - 1, by omega⟩
    rw [runFor] at h ⊢
    split at h
    · exact h
    · exact h
    · split at h
      · exact h
      · exact ih h (by omega)

/-- Steps enough for a table whose reductions between two shifts are bounded by `2^32`. -/
def stepBudget (tokens : List Token) : Nat :=
  Nat.pow 2 32 * (tokens.length + 1)

def run (tokens : List Token) : EStateM Error σ Unit := fun s =>
  match t.runFor o (stepBudget tokens) ⟨[], tokens⟩ s with
  | some outcome => outcome
  | none => .error (.stepLimit (stepBudget tokens)) s

end Control

end Straightline
