/-!
# Table entries

What a parse table stores for a state and a terminal: the state to shift to, the number of the
production to reduce by, or acceptance.
-/
namespace Straightline

inductive Entry where
  | shift (state : Nat)
  | reduce (production : Nat)
  | accept
  deriving DecidableEq, Repr

def Entry.text : Entry → String
  | shift state => "Shift(" ++ toString state ++ ")"
  | reduce production => "Reduce(" ++ toString production ++ ")"
  | accept => "Accept"

end Straightline
