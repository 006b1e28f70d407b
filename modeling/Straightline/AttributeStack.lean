import Straightline.Error

/-!
# Attribute stacks

An observer keeps a stack of its own beside the machine's: the same symbols, each with an attribute
that may be absent. Popping an empty stack is an error; discarding pops one symbol at a time, so
that a stack too short for it is left empty.
-/
namespace Straightline

structure Attributed (α : Type) where
  symbol : ParseSymbol
  value : Option α
  deriving DecidableEq, Repr

/-- Parse symbols with their attributes, top first. -/
structure AttributeStack (α : Type) where
  entries : List (Attributed α)
  deriving DecidableEq, Repr

namespace AttributeStack

variable {α : Type}

def empty : AttributeStack α := ⟨[]⟩

def size (s : AttributeStack α) : Nat :=
  s.entries.length

def push (a : Attributed α) (s : AttributeStack α) : AttributeStack α :=
  ⟨a :: s.entries⟩

def pop : EStateM Error (AttributeStack α) (Attributed α) := fun s =>
  match s.entries with
  | [] => .error (.invariant .stackUnderflow) s
  | a :: rest => .ok a ⟨rest⟩

def discard : Nat → EStateM Error (AttributeStack α) Unit
  | 0 => pure ()
  | n + 1 => do
    let _ ← pop
    discard n

@[simp] theorem pop_push (a : Attributed α) (s : AttributeStack α) : pop (s.push a) = .ok a s := rfl

theorem discard_eq (n : Nat) (s : AttributeStack α) :
    discard n s =
      if n ≤ s.size then .ok () ⟨s.entries.drop n⟩ else .error (.invariant .stackUnderflow) empty := by
  induction n generalizing s with
  | zero => rfl
  | succ n ih =>
    obtain ⟨entries⟩ := s
    cases entries with
    | nil => rfl
    | cons a rest =>
      have step : discard (n + 1) ⟨a :: rest⟩ = discard n ⟨rest⟩ := rfl
      rw [step, ih]
      by_cases h : n ≤ rest.length <;> simp [size, h]

end AttributeStack

end Straightline
