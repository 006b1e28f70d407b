import Straightline.Grammar
import Straightline.Saturation

/-!
# Nullable, FIRST and FOLLOW

Which non-terminals derive the empty string, which terminals start what a non-terminal derives, and
which terminals may stand right behind it. All three are least fixed points over the productions,
whether these can be reached from the start rule or not.
-/
namespace Straightline.Grammar

open Saturation

def lookaheadPairs : List (NonTerminal × Kind) :=
  NonTerminal.all.flatMap fun n => Kind.all.map fun k => (n, k)

/-- Whether a symbol vanishes when the listed non-terminals do. -/
def vanishes (nullable : List NonTerminal) : Symbol → Bool
  | .terminal _ => false
  | .nonTerminal n => nullable.contains n

/-- The non-terminals that derive the empty string. -/
def nullable (g : Grammar) : List NonTerminal :=
  saturate NonTerminal.all fun known n =>
    g.productions.any fun p => p.head == n && p.body.all (vanishes known)

/-- The symbols of a string up to the first that cannot vanish, that one included. -/
def leaders (nullable : List NonTerminal) : List Symbol → List Symbol
  | [] => []
  | s :: rest => if vanishes nullable s then s :: leaders nullable rest else [s]

/-- Whether a terminal may come first in what a string derives. -/
def startsWith (nullable : List NonTerminal) (first : List (NonTerminal × Kind))
    (body : List Symbol) (k : Kind) : Bool :=
  (leaders nullable body).any fun
    | .terminal t => t == k
    | .nonTerminal n => first.contains (n, k)

/-- FIRST: the terminals that start what a non-terminal derives. -/
def first (g : Grammar) : List (NonTerminal × Kind) :=
  let nullable := g.nullable
  saturate lookaheadPairs fun known (n, k) =>
    g.productions.any fun p => p.head == n && startsWith nullable known p.body k

/-- A non-terminal inside a body: the head, the non-terminal, and the symbols behind it. -/
structure Occurrence where
  head : NonTerminal
  symbol : NonTerminal
  rest : List Symbol

/-- The non-terminals inside a body, with what stands behind them. -/
def occurrences (head : NonTerminal) : List Symbol → List Occurrence
  | [] => []
  | .terminal _ :: rest => occurrences head rest
  | .nonTerminal n :: rest => ⟨head, n, rest⟩ :: occurrences head rest

/-- FOLLOW: the terminals that may stand right behind a non-terminal; the end of input stands
behind the head of the start rule. -/
def follow (g : Grammar) : List (NonTerminal × Kind) :=
  let nullable := g.nullable
  let first := g.first
  let places := g.productions.flatMap fun p => occurrences p.head p.body
  saturate lookaheadPairs fun known (n, k) =>
    (k == .endOfInput && g.start?.any (·.head == n)) ||
      places.any fun o => o.symbol == n &&
        (startsWith nullable first o.rest k ||
          (o.rest.all (vanishes nullable) && known.contains (o.head, k)))

def followOf (follow : List (NonTerminal × Kind)) (n : NonTerminal) : List Kind :=
  Kind.all.filter fun k => follow.contains (n, k)

end Straightline.Grammar
