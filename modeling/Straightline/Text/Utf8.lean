/-!
# Reading bytes as text

Every list of bytes has a text: where bytes are no part of a character in UTF-8, the replacement
character stands for them. Bytes that start a character and break off count together, up to the
first byte that cannot go on; any other byte counts alone.
-/
namespace Straightline.Utf8

/-- A character that is not complete: its bits so far, the bounds of the next byte, and how many
bytes follow that one. -/
structure Unfinished where
  bits : Nat
  least : Nat
  most : Nat
  more : Nat
  deriving DecidableEq, Repr

/-- What a byte that starts a longer character asks for. -/
def start? (byte : Nat) : Option Unfinished :=
  if 0xc2 ≤ byte ∧ byte ≤ 0xdf then some ⟨byte - 0xc0, 0x80, 0xbf, 0⟩
  else if byte = 0xe0 then some ⟨0, 0xa0, 0xbf, 1⟩
  else if byte = 0xed then some ⟨0xd, 0x80, 0x9f, 1⟩
  else if 0xe1 ≤ byte ∧ byte ≤ 0xef then some ⟨byte - 0xe0, 0x80, 0xbf, 1⟩
  else if byte = 0xf0 then some ⟨0, 0x90, 0xbf, 2⟩
  else if 0xf1 ≤ byte ∧ byte ≤ 0xf3 then some ⟨byte - 0xf0, 0x80, 0xbf, 2⟩
  else if byte = 0xf4 then some ⟨4, 0x80, 0x8f, 2⟩
  else none

/-- Stands for bytes that are no part of a character. -/
def replacement : Char := '�'

/-- The characters so far, the last one first, and the one that is not complete. -/
structure Reading where
  past : List Char
  pending : Option Unfinished
  deriving DecidableEq, Repr

namespace Reading

/-- Goes on with a byte between characters. -/
def begin (past : List Char) (byte : Nat) : Reading :=
  if byte < 0x80 then ⟨Char.ofNat byte :: past, none⟩
  else
    match start? byte with
    | some p => ⟨past, some p⟩
    | none => ⟨replacement :: past, none⟩

/-- Goes on with a byte. -/
def step (r : Reading) (byte : Nat) : Reading :=
  match r.pending with
  | none => begin r.past byte
  | some p =>
    if p.least ≤ byte ∧ byte ≤ p.most then
      let bits := 64 * p.bits + (byte - 0x80)
      match p.more with
      | 0 => ⟨Char.ofNat bits :: r.past, none⟩
      | more + 1 => ⟨r.past, some ⟨bits, 0x80, 0xbf, more⟩⟩
    else begin (replacement :: r.past) byte

def finish (r : Reading) : List Char :=
  (match r.pending with
    | some _ => replacement :: r.past
    | none => r.past).reverse

end Reading

def text (bytes : ByteArray) : String :=
  String.ofList ((bytes.toList.map UInt8.toNat).foldl Reading.step ⟨[], none⟩).finish

end Straightline.Utf8
