import Straightline.Json

/-!
# Writing JSON

Each array element and each field stands on a line of its own, indented by two blanks a level; an
empty array or object is written without a blank. Quotes, backslashes and control characters are
escaped, all other characters are written as they are. Every writer puts its text in front of a
text that follows.
-/
namespace Straightline.Json

def escape (c : Char) : List Char :=
  if c = '"' then ['\\', '"']
  else if c = '\\' then ['\\', '\\']
  else if c = '\n' then ['\\', 'n']
  else if c = '\r' then ['\\', 'r']
  else if c = '\t' then ['\\', 't']
  else if c.toNat = 8 then ['\\', 'b']
  else if c.toNat = 12 then ['\\', 'f']
  else if c.toNat < 32 then
    ['\\', 'u', '0', '0', Nat.digitChar (c.toNat / 16), Nat.digitChar (c.toNat % 16)]
  else [c]

/-- A string literal; one that is no text shows a lone surrogate. -/
def writeString (rest : List Char) : Option String → List Char
  | some s => '"' :: s.toList.flatMap escape ++ '"' :: rest
  | none => ['"', '\\', 'u', 'd', '8', '0', '0', '"'] ++ rest

def writeLine (depth : Nat) (rest : List Char) : List Char :=
  '\n' :: (List.replicate (2 * depth) ' ' ++ rest)

mutual

/-- A value whose first line stands at a depth. -/
def write (depth : Nat) (rest : List Char) : Json → List Char
  | .null => 'n' :: 'u' :: 'l' :: 'l' :: rest
  | .bool true => 't' :: 'r' :: 'u' :: 'e' :: rest
  | .bool false => 'f' :: 'a' :: 'l' :: 's' :: 'e' :: rest
  | .int n => (toString n).toList ++ rest
  | .decimal literal => literal.toList ++ rest
  | .str s => writeString rest s
  | .arr [] => '[' :: ']' :: rest
  | .arr (v :: vs) =>
    '[' :: writeLine (depth + 1)
      (write (depth + 1) (writeItems (depth + 1) (writeLine depth (']' :: rest)) vs) v)
  | .obj [] => '\x7b' :: '\x7d' :: rest
  | .obj ((key, v) :: fields) =>
    '\x7b' :: writeLine (depth + 1)
      (writeString
        (':' :: ' ' :: write (depth + 1)
          (writeFields (depth + 1) (writeLine depth ('\x7d' :: rest)) fields) v) key)

/-- The elements behind the first. -/
def writeItems (depth : Nat) (rest : List Char) : List Json → List Char
  | [] => rest
  | v :: vs => ',' :: writeLine depth (write depth (writeItems depth rest vs) v)

/-- The fields behind the first. -/
def writeFields (depth : Nat) (rest : List Char) : List (Option String × Json) → List Char
  | [] => rest
  | (key, v) :: fields =>
    ',' :: writeLine depth
      (writeString (':' :: ' ' :: write depth (writeFields depth rest fields) v) key)

end

def render (v : Json) : String :=
  String.ofList (write 0 [] v)

end Straightline.Json
