import Straightline.Decimal
import Straightline.Json

/-!
# Reading JSON

A text is one value with blanks around it. Strings hold no control characters; numbers have no
leading zeros and no plus sign. Nothing is lost that a later check may ask for: repeated fields,
numbers that are no integers, and strings that are no text stay distinguishable.
-/
namespace Straightline.Json

/-- What a string literal is made of: characters, and surrogates written as escapes. -/
inductive Unit16 where
  | char (c : Char)
  | surrogate (code : Nat)
  deriving DecidableEq, Repr

/-- The characters that the units of a literal spell: a leading surrogate and the trailing one
right behind it make one character, and a surrogate that stands alone makes none. -/
def assemble : List Unit16 → Option (List Char)
  | [] => some []
  | .char c :: rest => (assemble rest).map (c :: ·)
  | .surrogate high :: .surrogate low :: rest =>
    if high < 0xDC00 ∧ 0xDC00 ≤ low then
      (assemble rest).map
        (Char.ofNat (0x10000 + (high - 0xD800) * 0x400 + (low - 0xDC00)) :: ·)
    else none
  | .surrogate _ :: _ => none

def hexDigit? (c : Char) : Option Nat :=
  if '0' ≤ c ∧ c ≤ '9' then some (c.toNat - '0'.toNat)
  else if 'a' ≤ c ∧ c ≤ 'f' then some (c.toNat - 'a'.toNat + 10)
  else if 'A' ≤ c ∧ c ≤ 'F' then some (c.toNat - 'A'.toNat + 10)
  else none

/-- The unit that an escape with four hexadecimal digits names. -/
def unit? (a b c d : Char) : Option Unit16 := do
  let code := (((← hexDigit? a) * 16 + (← hexDigit? b)) * 16 + (← hexDigit? c)) * 16 + (← hexDigit? d)
  return if 0xD800 ≤ code ∧ code < 0xE000 then .surrogate code else .char (Char.ofNat code)

/-- The character that a short escape names. -/
def shortEscape? : Char → Option Char
  | '"' => some '"'
  | '\\' => some '\\'
  | '/' => some '/'
  | 'b' => some (Char.ofNat 8)
  | 'f' => some (Char.ofNat 12)
  | 'n' => some '\n'
  | 'r' => some '\r'
  | 't' => some '\t'
  | _ => none

/-- The units up to the closing quote, behind those already read, which come last one first. -/
def units (done : List Unit16) : List Char → Option (List Unit16 × List Char)
  | [] => none
  | '"' :: rest => some (done.reverse, rest)
  | '\\' :: 'u' :: a :: b :: c :: d :: rest =>
    match unit? a b c d with
    | some unit => units (unit :: done) rest
    | none => none
  | '\\' :: c :: rest =>
    match shortEscape? c with
    | some c => units (.char c :: done) rest
    | none => none
  | c :: rest => if c.toNat < 32 ∨ c = '\\' then none else units (.char c :: done) rest

/-- A string literal behind its opening quote. -/
def string (cs : List Char) : Option (Option String × List Char) :=
  (units [] cs).map fun (done, rest) => ((assemble done).map String.ofList, rest)

def isBlank (c : Char) : Bool :=
  c == ' ' || c == '\n' || c == '\r' || c == '\t'

def skipBlanks (cs : List Char) : List Char :=
  cs.dropWhile isBlank

def digits (cs : List Char) : Option (List Char × List Char) :=
  match cs.takeWhile Char.isDigit with
  | [] => none
  | ds => some (ds, cs.dropWhile Char.isDigit)

/-- The digits in front of a point: a zero alone, or digits that start with another. -/
def whole : List Char → Option (List Char × List Char)
  | '0' :: rest => some (['0'], rest)
  | cs => digits cs

def fraction : List Char → Option (List Char × List Char)
  | '.' :: rest => (digits rest).map fun (ds, rest) => ('.' :: ds, rest)
  | cs => some ([], cs)

/-- The mark of an exponent, an optional sign and digits, if there is the mark. -/
def exponent : List Char → Option (List Char × List Char)
  | c :: rest =>
    if c = 'e' ∨ c = 'E' then
      match rest with
      | '+' :: rest => (digits rest).map fun (ds, rest) => (c :: '+' :: ds, rest)
      | '-' :: rest => (digits rest).map fun (ds, rest) => (c :: '-' :: ds, rest)
      | rest => (digits rest).map fun (ds, rest) => (c :: ds, rest)
    else some ([], c :: rest)
  | [] => some ([], [])

/-- A number without its sign; an integer unless it has a fraction or an exponent, or is a
negative zero. -/
def unsigned (negative : Bool) (cs : List Char) : Option (Json × List Char) := do
  let (ds, cs) ← whole cs
  let (point, cs) ← fraction cs
  let (power, cs) ← exponent cs
  let value := Decimal.value ds
  if point.isEmpty && power.isEmpty && !(negative && value == 0) then
    return (.int (if negative then -(value : Int) else value), cs)
  else
    let sign := if negative then ['-'] else []
    return (.decimal (String.ofList (sign ++ ds ++ point ++ power)), cs)

def number : List Char → Option (Json × List Char)
  | '-' :: rest => unsigned true rest
  | cs => unsigned false cs

mutual

/-- A value, with blanks in front; `n` bounds the calls. -/
def value : Nat → List Char → Option (Json × List Char)
  | 0, _ => none
  | n + 1, cs =>
    match skipBlanks cs with
    | 'n' :: 'u' :: 'l' :: 'l' :: rest => some (.null, rest)
    | 't' :: 'r' :: 'u' :: 'e' :: rest => some (.bool true, rest)
    | 'f' :: 'a' :: 'l' :: 's' :: 'e' :: rest => some (.bool false, rest)
    | '"' :: rest => (string rest).map fun (s, rest) => (.str s, rest)
    | '[' :: rest =>
      match skipBlanks rest with
      | ']' :: rest => some (.arr [], rest)
      | rest => elements n [] rest
    | '\x7b' :: rest =>
      match skipBlanks rest with
      | '\x7d' :: rest => some (.obj [], rest)
      | rest => fields n [] rest
    | rest => number rest

/-- The elements of an array behind those already read, up to the closing bracket. -/
def elements : Nat → List Json → List Char → Option (Json × List Char)
  | 0, _, _ => none
  | n + 1, done, cs =>
    match value n cs with
    | none => none
    | some (v, rest) =>
      match skipBlanks rest with
      | ',' :: rest => elements n (v :: done) rest
      | ']' :: rest => some (.arr (v :: done).reverse, rest)
      | _ => none

/-- The fields of an object behind those already read, up to the closing brace. -/
def fields : Nat → List (Option String × Json) → List Char → Option (Json × List Char)
  | 0, _, _ => none
  | n + 1, done, cs =>
    match skipBlanks cs with
    | '"' :: rest =>
      match string rest with
      | none => none
      | some (key, rest) =>
        match skipBlanks rest with
        | ':' :: rest =>
          match value n rest with
          | none => none
          | some (v, rest) =>
            match skipBlanks rest with
            | ',' :: rest => fields n ((key, v) :: done) rest
            | '\x7d' :: rest => some (.obj ((key, v) :: done).reverse, rest)
            | _ => none
        | _ => none
    | _ => none

end

/-- The value that a text holds. Two calls for each character are more than a text can need. -/
def parse? (text : String) : Option Json :=
  let cs := text.toList
  match value (2 * cs.length + 2) cs with
  | some (v, rest) => if (skipBlanks rest).isEmpty then some v else none
  | none => none

end Straightline.Json
