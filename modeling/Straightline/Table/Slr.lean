import Straightline.Automaton
import Straightline.Grammar.Lookahead
import Straightline.Table

/-!
# SLR(1) tables

The table of a grammar: its states are those of the item-set automaton; a state shifts the
terminals behind its dots, reduces a finished item on the terminals that follow the head, and
accepts at the end of input when the start rule is finished. Two different actions for a state and
a terminal are a conflict, and the first one found is reported.
-/
namespace Straightline

namespace Row

/-- Puts an action into the cells of a state, unless a different one is there. -/
def enter (state : Nat) (cells : List (Kind × Entry)) (cell : Kind × Entry) :
    Except Error (List (Kind × Entry)) :=
  match cells.lookup cell.1 with
  | none => .ok (cells ++ [cell])
  | some existing =>
    if existing = cell.2 then .ok cells
    else .error (.grammarConflict state cell.1 existing.text cell.2.text)

end Row

namespace Grammar

variable (g : Grammar) (states : List ItemSet) (follow : List (NonTerminal × Kind))

/-- The state that moving over a symbol leads to. -/
def target? (s : ItemSet) (symbol : Symbol) : Option Nat :=
  states.idxOf? (g.advance s symbol)

/-- The actions that an item asks for. -/
def proposals (state : Nat) (s : ItemSet) (i : Item) : Except Error (List (Kind × Entry)) :=
  match i.next? with
  | some (.terminal k) =>
    match g.target? states s (.terminal k) with
    | some target => .ok [(k, .shift target)]
    | none => .error (.configuration (.noTransition state k))
  | some (.nonTerminal _) => .ok []
  | none =>
    if i.production.index = 0 then .ok [(.endOfInput, .accept)]
    else .ok ((followOf follow i.production.head).map (·, .reduce i.production.index))

/-- The actions of a state, in the order in which its items ask for them. -/
def cells (state : Nat) (s : ItemSet) : Except Error (List (Kind × Entry)) :=
  s.foldlM
    (fun cells i => do (← g.proposals states follow state s i).foldlM (Row.enter state) cells) []

def row (state : Nat) (s : ItemSet) : Except Error Row := do
  let cells ← g.cells states follow state s
  return {
    actions := Kind.all.filterMap fun k => (cells.lookup k).map (k, ·)
    gotos := NonTerminal.all.filterMap fun n => (g.target? states s (.nonTerminal n)).map (n, ·) }

end Grammar

namespace Table

/-- The SLR(1) table of a grammar whose start rule has one body symbol. -/
def build (g : Grammar) : Except Error Table :=
  match g.start? with
  | none => .error (.configuration .noProductions)
  | some start =>
    if start.body.length ≠ 1 then .error (.configuration .notAugmented)
    else do
      let states := g.states
      let follow := g.follow
      let rows ← states.zipIdx.mapM fun (s, state) => g.row states follow state s
      return ⟨g, 0, rows⟩

def reference : Except Error Table :=
  build .reference

end Table

end Straightline
