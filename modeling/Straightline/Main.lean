import Straightline.CommandLine.Commands

/-!
# The program

Reads the files that a command names, runs it, writes its file, and prints.
-/
namespace Straightline.CommandLine

/-- The number of a system's error, which some operations give with its sign turned. -/
def errorNumber? : IO.Error → Option UInt32
  | .noFileOrDirectory _ n _ | .inappropriateType _ n _ | .invalidArgument _ n _ => some (min n (-n))
  | _ => none

def fileError (e : IO.Error) : FileError :=
  match errorNumber? e with
  | some 2 => .absent
  | some 20 => .notDirectory
  | some 21 => .isDirectory
  | some 36 => .nameTooLong
  | _ => .failed (toString e)

def readText (path : String) : IO (Except FileError String) := do
  try
    match String.fromUTF8? (← IO.FS.readBinFile path) with
    | some text => return .ok text
    | none => return .error .notText
  catch e => return .error (fileError e)

def writeText (path text : String) : IO (Except FileError Unit) := do
  try
    IO.FS.writeFile path text
    return .ok ()
  catch e => return .error (fileError e)

def Command.paths : Command → List String
  | compile r => r.config.toList ++ r.table.toList ++ [r.file]
  | table _ => []

def Command.execute (c : Command) : IO Outcome := do
  let texts ← c.paths.mapM fun path => return (path, ← readText path)
  let result := c.run fun path => (texts.lookup path).getD (.error .absent)
  let written ← match result with
    | .ok { file := some (path, text), .. } => writeText path text
    | _ => pure (.ok ())
  return outcome result written

end Straightline.CommandLine

open Straightline.CommandLine in
def main (args : List String) : IO UInt32 := do
  let outcome ← match Invocation.read args with
    | none => pure usage
    | some i =>
      match Level.ofVerbosity? i.verbosity with
      | none => pure tooVerbose
      | some _ => i.command.execute
  IO.print outcome.stdout
  match outcome.stderr with
  | some "" => pure ()
  | some text => IO.eprintln text
  | none => IO.eprintln "error: bad arguments"
  return outcome.exit.toUInt32
