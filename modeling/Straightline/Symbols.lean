import Std.Data.TreeMap

/-!
# The symbol table

One entry for each identifier of a source text, in the order of the names. Scanning enters a name
without type and value; a declaration gives it its type.
-/
namespace Straightline

inductive Ty where
  | int
  deriving DecidableEq, Repr

def Ty.text : Ty → String
  | .int => "int"

def Ty.label : Ty → String
  | .int => "Int"

/-- What is known of an identifier. -/
structure SymbolEntry where
  name : String
  ty : Option Ty
  value : Option Int64
  deriving DecidableEq, Repr

structure Symbols where
  entries : Std.TreeMap String SymbolEntry

namespace Symbols

def empty : Symbols := ⟨∅⟩

def get? (s : Symbols) (name : String) : Option SymbolEntry :=
  s.entries[name]?

def contains (s : Symbols) (name : String) : Bool :=
  s.entries.contains name

/-- Enters a name without type and value; a name that is there keeps its entry. -/
def add (s : Symbols) (name : String) : Symbols :=
  if s.contains name then s else ⟨s.entries.insert name ⟨name, none, none⟩⟩

def addAll (s : Symbols) (names : List String) : Symbols :=
  names.foldl add s

/-- Changes the entry of a name that is there. -/
def modify? (s : Symbols) (name : String) (f : SymbolEntry → SymbolEntry) : Option Symbols :=
  (s.get? name).map fun e => ⟨s.entries.insert name (f e)⟩

def setType? (s : Symbols) (name : String) (ty : Option Ty) : Option Symbols :=
  s.modify? name fun e => { e with ty }

def setValue? (s : Symbols) (name : String) (value : Option Int64) : Option Symbols :=
  s.modify? name fun e => { e with value }

def typeOf? (s : Symbols) (name : String) : Option Ty :=
  (s.get? name).bind (·.ty)

def size (s : Symbols) : Nat :=
  s.entries.size

/-- The entries in the order of their names. -/
def toList (s : Symbols) : List SymbolEntry :=
  s.entries.toList.map (·.2)

/-- The names with their types, one a line. -/
def listing (s : Symbols) : String :=
  String.join (s.toList.map fun e =>
    "(" ++ e.name ++ ", " ++ (e.ty.map Ty.text).getD "null" ++ ")\n")

@[simp] theorem get?_empty (name : String) : empty.get? name = none := by
  simp [get?, empty]

theorem get?_add (s : Symbols) (name other : String) :
    (s.add name).get? other =
      if name = other ∧ s.get? name = none then some ⟨name, none, none⟩ else s.get? other := by
  unfold add get? contains
  split
  · rename_i h
    rw [Std.TreeMap.contains_iff_mem] at h
    have : s.entries[name]? ≠ none := by simpa using h
    simp [this]
  · rename_i h
    have hn : s.entries[name]? = none := by
      rw [Std.TreeMap.getElem?_eq_none]; simpa using h
    by_cases hk : name = other
    · subst hk; simp [hn]
    · simp [Std.TreeMap.getElem?_insert, hk]

theorem get?_of_modify? {s u : Symbols} {name : String} {f : SymbolEntry → SymbolEntry}
    (h : s.modify? name f = some u) (other : String) :
    u.get? other = if name = other then (s.get? name).map f else s.get? other := by
  obtain ⟨e, he, rfl⟩ := Option.map_eq_some_iff.mp h
  by_cases hk : name = other
  · subst hk; rw [he]; simp [get?]
  · simp [get?, Std.TreeMap.getElem?_insert, hk]

end Symbols

end Straightline
