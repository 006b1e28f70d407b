import Straightline.Machine

/-!
# Traces

The observer that keeps a list of what the machine did. A trace shows the productions of a
derivation in the order of their reductions.
-/
namespace Straightline

/-- A move, without the token's text and the production's body. -/
inductive Event where
  | shift (state : Nat) (kind : Kind)
  | reduce (state : Nat) (production : Nat) (head : NonTerminal)
  | accept (state : Nat)
  deriving DecidableEq, Repr

namespace Event

def ofMove : Move → Event
  | .shift state token => shift state token.kind
  | .reduce state p => reduce state p.index p.head
  | .accept state => accept state

def text : Event → String
  | shift state kind => "shift " ++ kind.name ++ " in " ++ toString state
  | reduce state production head =>
    "reduce " ++ toString production ++ " (" ++ head.name ++ ") -> " ++ toString state
  | accept state => "accept in " ++ toString state

def production? : Event → Option Nat
  | reduce _ production _ => some production
  | _ => none

def isAccept : Event → Bool
  | accept _ => true
  | _ => false

/-- The line that a reduction makes in a listing: its production, or the event itself where the
grammar has no production of that number. -/
def reductionLine? (g : Grammar) (e : Event) : Option String :=
  e.production?.map fun index => ((g.production? index).map (·.text)).getD e.text

/-- The reductions among events, one a line. -/
def reductionListing (g : Grammar) (events : List Event) : String :=
  String.join ((events.filterMap (reductionLine? g)).map (· ++ "\n"))

end Event

/-- The events so far, the last one first. -/
structure Trace where
  past : List Event
  deriving DecidableEq, Repr

namespace Trace

def empty : Trace := ⟨[]⟩

def events (t : Trace) : List Event :=
  t.past.reverse

/-- The numbers of the productions reduced, in order. -/
def reductions (t : Trace) : List Nat :=
  t.events.filterMap Event.production?

/-- Whether the last event is acceptance. -/
def accepted (t : Trace) : Bool :=
  t.past.head?.any Event.isAccept

def observe : Observer Trace := fun m t =>
  .ok () ⟨.ofMove m :: t.past⟩

@[simp] theorem events_empty : empty.events = [] := rfl

theorem observe_eq (m : Move) (t : Trace) :
    ∃ u, observe m t = .ok () u ∧ u.events = t.events ++ [.ofMove m] :=
  ⟨_, rfl, by simp [events]⟩

end Trace

end Straightline
