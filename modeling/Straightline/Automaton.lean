import Straightline.Grammar
import Straightline.Saturation

/-!
# The item-set automaton

An item is a production with a dot in its body. A state of the automaton is a closed set of items,
listed in the order of productions and dots; moving the dot over a symbol leads from state to
state. `Grammar.states` lists the states that can be reached from the start rule, breadth first.
-/
namespace Straightline

/-- A production with a dot before one of its body's symbols or at the end. -/
structure Item where
  production : Production
  dot : Nat
  deriving DecidableEq, Repr

namespace Item

def next? (i : Item) : Option Symbol :=
  i.production.body[i.dot]?

def advance (i : Item) : Item :=
  ⟨i.production, i.dot + 1⟩

/-- The items of one production, from the dot in front to the dot at the end. -/
def ofProduction (p : Production) : List Item :=
  (List.range (p.body.length + 1)).map fun dot => ⟨p, dot⟩

end Item

/-- A set of items, in the order of the grammar's items. -/
abbrev ItemSet := List Item

namespace Grammar

open Saturation

def items (g : Grammar) : ItemSet :=
  g.productions.flatMap Item.ofProduction

/-- The non-terminals that may come next in a set of items: those behind a dot, and those that
start the body of one. -/
def expected (g : Grammar) (kernel : ItemSet) : List NonTerminal :=
  saturate NonTerminal.all fun known n =>
    kernel.any (fun i => i.next? == some (.nonTerminal n)) ||
      g.productions.any fun p => known.contains p.head && p.body.head? == some (.nonTerminal n)

/-- The items of a set, with every production of an expected non-terminal, dot in front. -/
def closure (g : Grammar) (kernel : ItemSet) : ItemSet :=
  let expected := g.expected kernel
  g.items.filter fun i =>
    (i.dot == 0 && expected.contains i.production.head) || kernel.contains i

/-- The items of a set whose dot stands before a symbol, moved over it, and closed. -/
def advance (g : Grammar) (s : ItemSet) (symbol : Symbol) : ItemSet :=
  g.closure ((s.filter fun i => i.next? == some symbol).map Item.advance)

/-- The symbols behind a dot, terminals first. -/
def nextSymbols (s : ItemSet) : List Symbol :=
  Symbol.all.filter fun symbol => s.any fun i => i.next? == some symbol

/-- The closed set of the start rule with its dot in front. -/
def initial (g : Grammar) : ItemSet :=
  g.closure (g.start?.toList.map fun p => ⟨p, 0⟩)

/-- Puts a state behind those known, unless it is known. -/
def discover (known : List ItemSet) (s : ItemSet) : List ItemSet :=
  if known.contains s then known else known ++ [s]

/-- Adds the successors of the known states from position `i` on, for at most `n` states. -/
def explore (g : Grammar) : Nat → List ItemSet → Nat → List ItemSet
  | 0, known, _ => known
  | n + 1, known, i =>
    match known[i]? with
    | none => known
    | some s => g.explore n (((nextSymbols s).map (g.advance s)).foldl discover known) (i + 1)

/-- The states that can be reached, breadth first. There are no more than sets of items. -/
def states (g : Grammar) : List ItemSet :=
  g.explore (Nat.pow 2 g.items.length + 1) [g.initial] 0

end Grammar

end Straightline
