import Straightline.CommandLine.Arguments
import Straightline.CommandLine.Directory
import Straightline.Compilation.Report

/-!
# Commands

What the program prints and writes for each command. A command is a function of the files it reads;
the file it writes is part of its result, so that the outcome follows from whether that file could
be written.
-/
namespace Straightline.CommandLine

/-- Why a command failed, with what was being done. -/
inductive Failure where
  | plain (e : Error)
  | within (context : String) (e : Error)
  | file (context : String) (e : FileError)
  deriving DecidableEq, Repr

/-- What was being done, if that is said, and the cause. -/
def Failure.chain : Failure → List String
  | plain e => [e.message]
  | within context e => [context, e.message]
  | file context e => [context, e.message]

def indented (text : String) : String :=
  "    " ++ String.intercalate "\n    " (text.splitOn "\n")

/-- A failure as it is shown: the cause stands apart from what was being done. -/
def Failure.text (f : Failure) : String :=
  match f.chain with
  | [] => "Error: "
  | head :: causes =>
    "Error: " ++ head ++
      String.join (causes.map fun cause => "\n\nCaused by:\n" ++ indented cause)

/-- What a command prints, what it warns of, and the file it writes. -/
structure Result where
  stdout : String
  warnings : List String
  file : Option (String × String)
  deriving DecidableEq, Repr

abbrev Reader := String → Except FileError String

def options (read : Reader) (r : CompileJob) : Except Failure Options := do
  let o ← match r.config with
    | none => .ok Options.default
    | some path =>
      match read path with
      | .error e => .error (.plain (.configuration (.unreadable path e)))
      | .ok text => (Options.read text).mapError .plain
  return if r.noComments then { o with comments := false } else o

def table (read : Reader) (r : CompileJob) : Except Failure Table :=
  match r.table with
  | none => Table.reference.mapError .plain
  | some path =>
    match read path with
    | .error e => .error (.file ("reading table " ++ path) e)
    | .ok text => (Table.read text).mapError .plain

/-- The parts of a compilation that a request asks for. -/
def dumps (r : CompileJob) (g : Grammar) (c : Compilation) : String :=
  (if r.emitTokens then Token.listing c.tokens else "") ++
    (if r.emitSymbols then c.symbols.listing ++ Event.reductionListing g c.events else "") ++
    (if r.emitIr then
      "; IR\n" ++ c.program.listing ++ "; normalized\n" ++ c.normalized.listing
    else "") ++
    (if r.emitJson then c.report ++ "\n" else "")

/-- Compiles a file: the listing goes to a file if one is named, and is printed otherwise. -/
def compile (read : Reader) (r : CompileJob) : Except Failure Result := do
  let o ← options read r
  let t ← table read r
  let o ← o.validate.mapError .plain
  let source ← (read r.file).mapError (.file ("reading " ++ r.file))
  let c ← (Compilation.ofSource o t.control source).mapError (.within ("compiling " ++ r.file))
  let dumped := dumps r t.grammar c
  let listing := c.assembly.render
  return match r.output with
    | some path => ⟨dumped, c.warnings, some (path, listing)⟩
    | none => ⟨dumped ++ listing, c.warnings, none⟩

/-- Prints the grammar of straight-line programs and its table: the table goes to a file if one is
named. -/
def showTable (output : Option String) : Except Failure Result := do
  let t ← Table.reference.mapError .plain
  return match output with
    | some path => ⟨t.grammar.text, [], some (path, t.render)⟩
    | none => ⟨t.grammar.text ++ t.render ++ "\n", [], none⟩

def Command.run (read : Reader) : Command → Except Failure Result
  | compile request => CommandLine.compile read request
  | table output => showTable output

/-- Why a command failed once its file could not be written. -/
def Result.failure? (r : Result) (written : Except FileError Unit) : Option Failure :=
  match r.file, written with
  | some (path, _), .error e => some (.file ("writing " ++ path) e)
  | _, _ => none

/-- What a run of the program shows. Bad arguments show no text of this library. -/
structure Outcome where
  exit : Nat
  stdout : String
  stderr : Option String
  deriving DecidableEq, Repr

/-- How much is logged. -/
inductive Level where
  | error
  | warn
  | info
  | debug
  | trace
  deriving DecidableEq, Repr

namespace Level

def name : Level → String
  | error => "error"
  | warn => "warn"
  | info => "info"
  | debug => "debug"
  | trace => "trace"

/-- The level for a number of requests for more output. -/
def ofVerbosity? : Nat → Option Level
  | 0 => some error
  | 1 => some warn
  | 2 => some info
  | 3 => some debug
  | 4 => some trace
  | _ => none

def complaint : String := "Don't be crazy with verbose"

end Level

/-- The outcome of a command, given whether its file could be written. -/
def outcome (result : Except Failure Result) (written : Except FileError Unit) : Outcome :=
  match result with
  | .error f => ⟨1, "", some f.text⟩
  | .ok r =>
    let warnings := r.warnings.map ("warning: " ++ ·)
    match r.failure? written with
    | some f => ⟨1, r.stdout, some (String.intercalate "\n" (warnings ++ [f.text]))⟩
    | none => ⟨0, r.stdout, some (String.intercalate "\n" warnings)⟩

def usage : Outcome := ⟨2, "", none⟩

def tooVerbose : Outcome := ⟨1, "", some ("Error: " ++ Level.complaint)⟩

namespace Directory

def commit (d : Directory) (result : Except Failure Result) :
    Except FileError Unit × Directory :=
  match result with
  | .ok { file := some (path, text), .. } =>
    match d.write path text with
    | .ok d => (.ok (), d)
    | .error e => (.error e, d)
  | _ => (.ok (), d)

/-- Runs a command in a directory. -/
def execute (d : Directory) (c : Command) :
    Except Failure Result × Except FileError Unit × Directory :=
  let result := c.run d.read
  (result, d.commit result)

/-- Runs the program in a directory. -/
def launch (d : Directory) (texts : List String) : Outcome × Directory :=
  match Invocation.read texts with
  | none => (usage, d)
  | some i =>
    match Level.ofVerbosity? i.verbosity with
    | none => (tooVerbose, d)
    | some _ =>
      let (result, written, d) := d.execute i.command
      (outcome result written, d)

end Directory

end Straightline.CommandLine
