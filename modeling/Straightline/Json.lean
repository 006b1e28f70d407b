/-!
# JSON values

Values as they are written: fields keep their order and may repeat, integers have no bound, and a
number with a fraction or an exponent keeps its text. A string is `none` when its escapes hold a
surrogate without its partner: it is well formed, but no text.
-/
namespace Straightline

inductive Json where
  | null
  | bool (b : Bool)
  | int (n : Int)
  | decimal (literal : String)
  | str (text : Option String)
  | arr (items : List Json)
  | obj (fields : List (Option String × Json))
  deriving Repr

namespace Json

def text (s : String) : Json :=
  .str (some s)

def nat (n : Nat) : Json :=
  .int n

def record (fields : List (String × Json)) : Json :=
  .obj (fields.map fun f => (some f.1, f.2))

/-- A value that may be absent. -/
def ofOption {α : Type} (f : α → Json) : Option α → Json
  | none => .null
  | some a => f a

end Json

end Straightline
