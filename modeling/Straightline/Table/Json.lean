import Straightline.Json.Decode
import Straightline.Json.Printer
import Straightline.Json.Reader
import Straightline.Table

/-!
# Tables as JSON

A table is written with its grammar, its initial state and its rows. A table that is read must not
dangle: productions are numbered by position, and the initial state, every shift, every goto and
every reduction name something that is there.
-/
namespace Straightline

namespace Kind

def toJson (k : Kind) : Json :=
  .text k.label

def ofJson? (v : Json) : Option Kind :=
  v.name?.bind ofLabel?

end Kind

namespace NonTerminal

def toJson (n : NonTerminal) : Json :=
  .text n.label

def ofJson? (v : Json) : Option NonTerminal :=
  v.name?.bind ofLabel?

end NonTerminal

namespace Symbol

def toJson : Symbol → Json
  | terminal k => .record [("Terminal", k.toJson)]
  | nonTerminal n => .record [("NonTerminal", n.toJson)]

def ofJson? (v : Json) : Option Symbol :=
  match v.choice? with
  | some ("Terminal", some data) => (Kind.ofJson? data).map terminal
  | some ("NonTerminal", some data) => (NonTerminal.ofJson? data).map nonTerminal
  | _ => none

end Symbol

namespace Production

def toJson (p : Production) : Json :=
  .record [("index", .nat p.index), ("head", p.head.toJson), ("body", .arr (p.body.map (·.toJson)))]

def ofJson? (v : Json) : Option Production := do
  match ← v.allFields? ["index", "head", "body"] with
  | [index, head, body] =>
    return ⟨← index.size?, ← NonTerminal.ofJson? head, ← body.list? Symbol.ofJson?⟩
  | _ => none

end Production

namespace Grammar

def toJson (g : Grammar) : Json :=
  .record [("productions", .arr (g.productions.map (·.toJson)))]

def ofJson? (v : Json) : Option Grammar := do
  match ← v.allFields? ["productions"] with
  | [productions] => return ⟨← productions.list? Production.ofJson?⟩
  | _ => none

end Grammar

namespace Entry

def toJson : Entry → Json
  | shift state => .record [("Shift", .nat state)]
  | reduce production => .record [("Reduce", .nat production)]
  | accept => .text "Accept"

def ofJson? (v : Json) : Option Entry :=
  match v.choice? with
  | some ("Shift", some data) => data.size?.map shift
  | some ("Reduce", some data) => data.size?.map reduce
  | some ("Accept", none) => some accept
  | _ => none

end Entry

namespace Row

def toJson (r : Row) : Json :=
  .record
    [("actions", .arr (r.actions.map fun (k, e) => .arr [k.toJson, e.toJson])),
      ("gotos", .arr (r.gotos.map fun (n, state) => .arr [n.toJson, .nat state]))]

def ofJson? (v : Json) : Option Row := do
  match ← v.allFields? ["actions", "gotos"] with
  | [actions, gotos] =>
    return ⟨← actions.list? (Json.pair? Kind.ofJson? Entry.ofJson?),
      ← gotos.list? (Json.pair? NonTerminal.ofJson? Json.size?)⟩
  | _ => none

end Row

namespace Table

def toJson (t : Table) : Json :=
  .record
    [("grammar", t.grammar.toJson), ("initial", .nat t.initial),
      ("rows", .arr (t.rows.map (·.toJson)))]

def ofJson? (v : Json) : Option Table := do
  match ← v.allFields? ["grammar", "initial", "rows"] with
  | [grammar, initial, rows] =>
    return ⟨← Grammar.ofJson? grammar, ← initial.size?, ← rows.list? Row.ofJson?⟩
  | _ => none

/-- The first production that is not numbered by its position. -/
def misplaced? (t : Table) : Option Misconfiguration :=
  t.grammar.productions.zipIdx.findSome? fun (p, position) =>
    if p.index = position then none else some (.misplacedProduction p.index position)

/-- An initial state that is not there. -/
def lostInitial? (t : Table) : Option Misconfiguration :=
  if t.initial < t.stateCount then none else some (.initialOutOfRange t.initial t.stateCount)

/-- Whether an entry names something that is there. -/
def names (t : Table) : Entry → Bool
  | .shift target => target < t.stateCount
  | .reduce index => index < t.grammar.productions.length
  | .accept => true

/-- The first pair of a row that dangles, actions first. -/
def danglingIn? (t : Table) (state : Nat) (r : Row) : Option Misconfiguration :=
  (r.actions.findSome? fun (k, e) => if t.names e then none else some (.danglingEntry state k e)) <|>
    r.gotos.findSome? fun (n, target) =>
      if target < t.stateCount then none else some (.danglingGoto state n target)

def dangling? (t : Table) : Option Misconfiguration :=
  t.rows.zipIdx.findSome? fun (r, state) => t.danglingIn? state r

/-- What keeps a table from being used. -/
def fault? (t : Table) : Option Misconfiguration :=
  t.misplaced? <|> t.lostInitial? <|> t.dangling?

def read (text : String) : Except Error Table :=
  match (Json.parse? text).bind ofJson? with
  | none => .error (.configuration .malformedJson)
  | some t =>
    match t.fault? with
    | some fault => .error (.configuration fault)
    | none => .ok t

def render (t : Table) : String :=
  t.toJson.render

end Table

end Straightline
