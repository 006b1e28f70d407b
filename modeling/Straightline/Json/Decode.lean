import Straightline.Json

/-!
# Reading typed values from JSON

A record is an object, in which unknown fields are skipped and known ones stand at most once, or an
array of its fields in order. A choice is the name of an alternative, or an object with the name as
its one field; a name alone and a name with `null` mean an alternative without data.
-/
namespace Straightline.Json

def str? : Json → Option String
  | .str s => s
  | _ => none

def bool? : Json → Option Bool
  | .bool b => some b
  | _ => none

/-- A number below 2^64. -/
def size? : Json → Option Nat
  | .int n => if 0 ≤ n ∧ n < Int.pow 2 64 then some n.toNat else none
  | _ => none

def list? {α : Type} (f : Json → Option α) : Json → Option (List α)
  | .arr items => items.mapM f
  | _ => none

def pair? {α β : Type} (f : Json → Option α) (g : Json → Option β) : Json → Option (α × β)
  | .arr [a, b] => do return (← f a, ← g b)
  | _ => none

/-- The value of a field that stands at most once. -/
def field? (fields : List (Option String × Json)) (name : String) : Option (Option Json) :=
  match fields.filter fun f => f.1 == some name with
  | [] => some none
  | [(_, v)] => some (some v)
  | _ => none

/-- The fields of a record by name; a field may be missing. -/
def fields? (names : List String) : Json → Option (List (Option Json))
  | .obj fields =>
    if fields.all fun f => f.1.isSome then names.mapM (field? fields) else none
  | .arr items =>
    if items.length ≤ names.length then
      some (items.map some ++ List.replicate (names.length - items.length) none)
    else none
  | _ => none

/-- The fields of a record of which none is missing. -/
def allFields? (names : List String) (v : Json) : Option (List Json) := do
  (← v.fields? names).mapM id

/-- The name of an alternative and its data. -/
def choice? : Json → Option (String × Option Json)
  | .str (some name) => some (name, none)
  | .obj [(some name, .null)] => some (name, none)
  | .obj [(some name, v)] => some (name, some v)
  | _ => none

def name? (v : Json) : Option String :=
  match v.choice? with
  | some (name, none) => some name
  | _ => none

end Straightline.Json
