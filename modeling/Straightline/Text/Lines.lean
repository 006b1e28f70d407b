/-!
# Lines

The lines of a text. A line ends with a line feed, or with a carriage return and a line feed; the
last one may go without.
-/
namespace Straightline.Lines

/-- A line without the carriage return at its end. -/
def trim (line : List Char) : List Char :=
  if line.getLast? = some '\r' then line.dropLast else line

/-- The lines of a text that goes on from the start of one, which comes last character first. -/
def splitOnto (started : List Char) : List Char → List (List Char)
  | [] => if started.isEmpty then [] else [started.reverse]
  | '\n' :: rest => trim started.reverse :: splitOnto [] rest
  | c :: rest => splitOnto (c :: started) rest

def ofText (text : String) : List String :=
  (splitOnto [] text.toList).map String.ofList

end Straightline.Lines
