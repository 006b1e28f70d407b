import Straightline.Error
import Straightline.Text.Utf8

/-!
# Directories

The files of a tree, seen from a working directory, with the rules by which paths are followed. A
path with a slash in front starts at the root, any other at the working directory. Each step starts
from a directory: blank and `.` steps stay there, `..` steps go back, and a name leads to a
directory, to a file, or to nothing yet.
-/
namespace Straightline.CommandLine

/-- A working directory, and files with their contents, each by the steps from the root. -/
structure Directory where
  here : List String
  files : List (List String × ByteArray)

namespace Directory

/-- The most bytes that a name may have. -/
def nameLimit : Nat := 255

/-- The number of bytes from which on a path is too long. -/
def pathLimit : Nat := 4096

/-- The file that stays empty, whatever is written to it. -/
def nullFile : List String := ["dev", "null"]

def file? (d : Directory) (steps : List String) : Option ByteArray :=
  if steps = nullFile then some .empty else d.files.lookup steps

/-- Whether steps lead to a directory: to one on the way to the working directory, or to one that
holds a file. -/
def isDirectory (d : Directory) (steps : List String) : Bool :=
  steps.isPrefixOf d.here ||
    (nullFile :: d.files.map (·.1)).any fun file =>
      steps.isPrefixOf file && steps.length < file.length

/-- Where a name leads to from a directory. The root lies above itself. -/
def advance (done : List String) (name : String) : List String :=
  if name = "" ∨ name = "." then done
  else if name = ".." then done.dropLast
  else done ++ [name]

def step (d : Directory) (done : List String) (name : String) : Except FileError (List String) :=
  if !d.isDirectory done then
    .error (if (d.file? done).isSome then .notDirectory else .absent)
  else if nameLimit < name.utf8ByteSize then .error .nameTooLong
  else .ok (advance done name)

/-- What keeps a path from being followed at all. -/
def pathFault? (path : String) : Option FileError :=
  if path.toList.contains '\x00' then some .nulInName
  else if path.isEmpty then some .absent
  else if pathLimit ≤ path.utf8ByteSize then some .nameTooLong
  else none

/-- Where a path starts. -/
def origin (here : List String) (path : String) : List String :=
  if path.startsWith "/" then [] else here

/-- Follows names from where a path starts. -/
def follow (d : Directory) (path : String) (names : List String) :
    Except FileError (List String) :=
  match pathFault? path with
  | some e => .error e
  | none => names.foldlM d.step (origin d.here path)

def readBytes (d : Directory) (path : String) : Except FileError ByteArray := do
  let steps ← d.follow path (path.splitOn "/")
  if d.isDirectory steps then throw .isDirectory
  match d.file? steps with
  | some bytes => return bytes
  | none => throw .absent

def read (d : Directory) (path : String) : Except FileError String := do
  match String.fromUTF8? (← d.readBytes path) with
  | some text => return text
  | none => throw .notText

/-- What a file shows: its text, with replacements where its bytes are none. -/
def view? (d : Directory) (path : String) : Option String :=
  ((d.readBytes path).map Utf8.text).toOption

/-- Puts bytes into a file, in place of what was there. -/
def put (d : Directory) (steps : List String) (bytes : ByteArray) : Directory :=
  if steps = nullFile then d else { d with files := (steps, bytes) :: d.files.filter (·.1 != steps) }

def ofFiles (here : List String) (files : List (String × ByteArray)) : Directory :=
  files.foldl
    (fun d f => d.put ((f.1.splitOn "/").foldl advance (origin here f.1)) f.2) ⟨here, []⟩

/-- Where a file to be written is. A path with a slash behind it is taken for that of a directory,
whatever its last name leads to. -/
def destination (d : Directory) (path : String) : Except FileError (List String) := do
  if path.endsWith "/" then
    let names := (path.splitOn "/").filter (· ≠ "")
    discard (d.follow path (names.dropLast ++ [""]))
    throw .isDirectory
  let steps ← d.follow path (path.splitOn "/")
  if d.isDirectory steps then throw .isDirectory
  return steps

def write (d : Directory) (path : String) (text : String) : Except FileError Directory := do
  return d.put (← d.destination path) text.toUTF8

end Directory

end Straightline.CommandLine
