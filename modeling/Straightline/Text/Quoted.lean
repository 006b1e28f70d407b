import Straightline.Text.Graphic

/-!
# Quoted texts

A text between double quotes. Inside, quotes and backslashes have a backslash in front, the common
controls are written by a letter, and any other character that is not graphic by its code point.
-/
namespace Straightline.Quoted

/-- A character by its code point, in hexadecimal digits between braces. -/
def codePoint (c : Char) : List Char :=
  ['\\', 'u', '\x7b'] ++ Nat.toDigits 16 c.toNat ++ ['\x7d']

/-- A character inside quotes. -/
def escape (c : Char) : List Char :=
  if c = '"' then ['\\', '"']
  else if c = '\\' then ['\\', '\\']
  else if c = '\n' then ['\\', 'n']
  else if c = '\t' then ['\\', 't']
  else if c = '\r' then ['\\', 'r']
  else if c.toNat = 0 then ['\\', '0']
  else if Graphic.isGraphic c then [c]
  else codePoint c

def text (s : String) : String :=
  String.ofList ('"' :: s.toList.flatMap escape ++ ['"'])

end Straightline.Quoted
