import Straightline.Machine

/-!
# Recorders

A recorder writes each move it is told into a journal, and refuses a chosen one. Several recorders
share a journal, which shows the order in which they are told.
-/
namespace Straightline

/-- Lines of recorders, the last one first. -/
abbrev Journal := List String

/-- The state of a recorder: its name, the call it refuses, if any, the calls so far, and whether
it was given a symbol table. -/
structure Recorder where
  name : String
  refuses : Option Nat
  seen : Nat
  bound : Bool
  deriving DecidableEq, Repr

namespace Recorder

def line : Move → String
  | .shift state token => "shift " ++ toString state ++ " " ++ token.text
  | .reduce state p => "reduce " ++ toString state ++ " " ++ p.text
  | .accept state => "accept " ++ toString state

def observe : Observer (Journal × Recorder) := fun m (journal, r) =>
  let told := { r with seen := r.seen + 1 }
  if r.refuses = some told.seen then .error (.invariant (.refused r.name)) (journal, told)
  else .ok () ((r.name ++ ":" ++ line m) :: journal, told)

end Recorder

end Straightline
