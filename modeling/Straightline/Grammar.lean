import Straightline.Decimal
import Straightline.Token

/-!
# Grammars

Context-free grammars over the fixed terminals and eight non-terminals. A grammar is a list of
productions; production 0 is the start rule. The grammar of straight-line programs is
`Grammar.reference`.
-/
namespace Straightline

inductive NonTerminal where
  | start
  | program
  | statementList
  | statement
  | declarator
  | expr
  | term
  | factor
  deriving DecidableEq, Hashable, Repr

namespace NonTerminal

/-- Every non-terminal, in table order. -/
def all : List NonTerminal :=
  [start, program, statementList, statement, declarator, expr, term, factor]

theorem mem_all (n : NonTerminal) : n ∈ all := by
  cases n <;> decide

/-- The spelling in grammars and dumps. -/
def name : NonTerminal → String
  | start => "P'"
  | program => "P"
  | statementList => "S_list"
  | statement => "S"
  | declarator => "D"
  | expr => "E"
  | term => "A"
  | factor => "B"

/-- The spelling in messages and files. -/
def label : NonTerminal → String
  | start => "Start"
  | program => "Program"
  | statementList => "StatementList"
  | statement => "Statement"
  | declarator => "Declarator"
  | expr => "Expr"
  | term => "Term"
  | factor => "Factor"

def ofLabel? (text : String) : Option NonTerminal :=
  all.find? (·.label == text)

end NonTerminal

inductive Symbol where
  | terminal (kind : Kind)
  | nonTerminal (head : NonTerminal)
  deriving DecidableEq, Repr

namespace Symbol

/-- Every symbol: the terminals in table order, then the non-terminals. -/
def all : List Symbol :=
  Kind.all.map terminal ++ NonTerminal.all.map nonTerminal

theorem mem_all (s : Symbol) : s ∈ all := by
  cases s with
  | terminal k => simp [all, Kind.mem_all]
  | nonTerminal n => simp [all, NonTerminal.mem_all]

def name : Symbol → String
  | terminal k => k.name
  | nonTerminal n => n.name

end Symbol

/-- A numbered rule. -/
structure Production where
  index : Nat
  head : NonTerminal
  body : List Symbol
  deriving DecidableEq, Repr

/-- The head, an arrow, and the body's symbols apart by blanks. -/
def Production.text (p : Production) : String :=
  p.head.name ++ " ->" ++ String.join (p.body.map fun s => " " ++ s.name)

/-- A context-free grammar. -/
structure Grammar where
  productions : List Production
  deriving DecidableEq, Repr

namespace Grammar

/-- Numbers the rules by their position. -/
def ofRules (rules : List (NonTerminal × List Symbol)) : Grammar :=
  ⟨rules.mapIdx fun i rule => ⟨i, rule.1, rule.2⟩⟩

def production? (g : Grammar) (index : Nat) : Option Production :=
  g.productions[index]?

/-- The start rule. -/
def start? (g : Grammar) : Option Production :=
  g.production? 0

/-- The productions, one a line, their numbers right-aligned. -/
def text (g : Grammar) : String :=
  String.join (g.productions.map fun p => Decimal.padded ' ' 2 p.index ++ " " ++ p.text ++ "\n")

/-- Straight-line programs: declarations, assignments and returns, each ended by a semicolon, with
sums, differences and products. -/
def reference : Grammar :=
  ofRules
    [(.start, [.nonTerminal .program]),
      (.program, [.nonTerminal .statementList]),
      (.statementList,
        [.nonTerminal .statement, .terminal .semicolon, .nonTerminal .statementList]),
      (.statementList, [.nonTerminal .statement, .terminal .semicolon]),
      (.statement, [.nonTerminal .declarator, .terminal .identifier]),
      (.declarator, [.terminal .intWord]),
      (.statement, [.terminal .identifier, .terminal .assign, .nonTerminal .expr]),
      (.statement, [.terminal .returnWord, .nonTerminal .expr]),
      (.expr, [.nonTerminal .expr, .terminal .plus, .nonTerminal .term]),
      (.expr, [.nonTerminal .expr, .terminal .minus, .nonTerminal .term]),
      (.expr, [.nonTerminal .term]),
      (.term, [.nonTerminal .term, .terminal .star, .nonTerminal .factor]),
      (.term, [.nonTerminal .factor]),
      (.factor, [.terminal .leftParen, .nonTerminal .expr, .terminal .rightParen]),
      (.factor, [.terminal .identifier]),
      (.factor, [.terminal .intConst])]

theorem getElem?_ofRules (rules : List (NonTerminal × List Symbol)) (i : Nat) :
    (ofRules rules).productions[i]? = rules[i]?.map fun rule => ⟨i, rule.1, rule.2⟩ := by
  simp [ofRules]

theorem index_of_mem_ofRules {rules : List (NonTerminal × List Symbol)} {i : Nat} {p : Production}
    (h : (ofRules rules).production? i = some p) : p.index = i := by
  rw [production?, getElem?_ofRules] at h
  obtain ⟨rule, -, rfl⟩ := Option.map_eq_some_iff.mp h
  rfl

end Grammar

end Straightline
