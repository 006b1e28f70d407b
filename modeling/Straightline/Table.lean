import Straightline.Error

/-!
# Parse tables

A table has a row of actions and gotos for each state. Where a row lists a terminal or a
non-terminal more than once, the last pair counts. The parser asks a table only through its
`Control`: the initial state, the action for a state and a terminal, and the goto for a state and
a non-terminal.
-/
namespace Straightline

/-- The actions and gotos of a state. -/
structure Row where
  actions : List (Kind × Entry)
  gotos : List (NonTerminal × Nat)
  deriving DecidableEq, Repr

/-- The last of the values that pairs have for a key. -/
def lastOf? {κ ε : Type} [BEq κ] (pairs : List (κ × ε)) (k : κ) : Option ε :=
  ((pairs.filter (·.1 == k)).getLast?).map (·.2)

namespace Row

def cell? (r : Row) (k : Kind) : Option Entry :=
  lastOf? r.actions k

def goto? (r : Row) (n : NonTerminal) : Option Nat :=
  lastOf? r.gotos n

end Row

/-- A parse table of a grammar. -/
structure Table where
  grammar : Grammar
  initial : Nat
  rows : List Row
  deriving DecidableEq, Repr

inductive Action where
  | shift (state : Nat)
  | reduce (production : Production)
  | accept
  | error
  deriving DecidableEq, Repr

/-- What the parser asks of a table. -/
structure Control where
  initial : Nat
  action : Nat → Kind → Action
  goto : Nat → NonTerminal → Option Nat

namespace Table

def stateCount (t : Table) : Nat :=
  t.rows.length

def cell? (t : Table) (state : Nat) (k : Kind) : Option Entry :=
  t.rows[state]?.bind (·.cell? k)

def goto? (t : Table) (state : Nat) (n : NonTerminal) : Option Nat :=
  t.rows[state]?.bind (·.goto? n)

def action (t : Table) (state : Nat) (k : Kind) : Action :=
  match t.cell? state k with
  | some (.shift target) => .shift target
  | some (.reduce index) =>
    match t.grammar.production? index with
    | some p => .reduce p
    | none => .error
  | some .accept => .accept
  | none => .error

def control (t : Table) : Control :=
  ⟨t.initial, t.action, t.goto?⟩

end Table

end Straightline
