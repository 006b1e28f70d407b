import Straightline.Error

/-!
# Registers

Registers are handed out by the uses that variables have left. A variable keeps its register; a new
one takes the first free register, else the first whose occupant has no use left. There is no
spilling: when every occupant is still needed, allocation fails.
-/
namespace Straightline

/-- How often each variable is still to be asked for. -/
abbrev Usage := Std.TreeMap Variable Nat

def Usage.ofInstructions (instructions : List Instruction) : Usage :=
  (instructions.flatMap (·.occurrences)).foldl (fun u v => u.insert v (u.getD v 0 + 1)) ∅

/-- A register and the variable it holds. -/
structure Slot where
  register : String
  occupant : Option Variable
  deriving DecidableEq, Repr

/-- The registers, and the uses that are left. -/
structure Registers where
  slots : List Slot
  usage : Usage

namespace Registers

/-- The first name that stands earlier in the list, too. -/
def firstRepeat? (seen : List String) : List String → Option String
  | [] => none
  | name :: rest => if seen.contains name then some name else firstRepeat? (name :: seen) rest

/-- Free registers with given names, which have to differ. -/
def ofNames (names : List String) (usage : Usage) : Except Error Registers :=
  if names.isEmpty then .error (.configuration .emptyRegisterSet)
  else
    match firstRepeat? [] names with
    | some name => .error (.configuration (.repeatedRegister name))
    | none => .ok ⟨names.map (⟨·, none⟩), usage⟩

def capacity (r : Registers) : Nat :=
  r.slots.length

def usage? (r : Registers) (v : Variable) : Option Nat :=
  r.usage[v]?

def register? (r : Registers) (v : Variable) : Option String :=
  (r.slots.find? (·.occupant == some v)).map (·.register)

/-- Whether a slot holds a variable without uses. -/
def isDead (r : Registers) (s : Slot) : Bool :=
  s.occupant.any fun v => r.usage.getD v 0 == 0

/-- The slot for a variable: its own, a free one, or a dead one. -/
def slot? (r : Registers) (v : Variable) : Option (Fin r.slots.length) :=
  r.slots.findFinIdx? (·.occupant == some v) <|>
    r.slots.findFinIdx? (·.occupant.isNone) <|> r.slots.findFinIdx? r.isDead

/-- The register for one use of a variable. -/
def resolve (r : Registers) (v : Variable) : Except Error (String × Registers) :=
  if v = .named "" then .error (.invariant .namelessVariable)
  else
    match r.usage.getD v 0 with
    | 0 => .error (.invariant (.usageSpent v))
    | left + 1 =>
      match r.slot? v with
      | none => .error (.registersExhausted v r.capacity)
      | some n =>
        let register := r.slots[n].register
        .ok (register, ⟨r.slots.set n ⟨register, some v⟩, r.usage.insert v left⟩)

/-- A request to registers that stay in use after a refusal. -/
def request (v : Variable) : EStateM Error Registers String := fun r =>
  match r.resolve v with
  | .error e => .error e r
  | .ok (register, r') => .ok register r'

end Registers

end Straightline
