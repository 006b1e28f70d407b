/-!
# Decimal texts

Words are written in base ten with a minus sign in front of the negative ones. Reading takes an
optional sign and at least one ASCII digit, and refuses a value that is no 64-bit word.
-/
namespace Straightline.Decimal

/-- The value of a run of ASCII digits, the most significant first. -/
def value (digits : List Char) : Nat :=
  digits.foldl (fun n c => 10 * n + (c.toNat - '0'.toNat)) 0

/-- One or more ASCII digits. -/
def natural? (digits : List Char) : Option Nat :=
  if digits.isEmpty || !digits.all Char.isDigit then none else some (value digits)

/-- An optional sign and one or more ASCII digits. -/
def integer? : List Char → Option Int
  | '-' :: digits => (natural? digits).map fun n => -(n : Int)
  | '+' :: digits => (natural? digits).map fun n => (n : Int)
  | digits => (natural? digits).map fun n => (n : Int)

/-- The word that an integer denotes, when it is one. -/
def word? (n : Int) : Option Int64 :=
  if Int64.minValue.toInt ≤ n ∧ n ≤ Int64.maxValue.toInt then some (Int64.ofInt n) else none

/-- The word that a decimal text denotes. -/
def read? (text : String) : Option Int64 :=
  (integer? text.toList).bind word?

def text (n : Int64) : String :=
  toString n.toInt

/-- The decimal text of a number, filled up on the left to a least width. -/
def padded (fill : Char) (width n : Nat) : String :=
  let digits := Nat.toDigits 10 n
  String.ofList (List.replicate (width - digits.length) fill ++ digits)

end Straightline.Decimal
