/-!
# Command line arguments

Arguments are options with a value, flags, and positional ones; two dashes alone end the options. A
value stands behind its option, or behind an equals sign, or right behind a one-letter option; a
separate value must not look like an option itself. Nothing may be repeated, unknown or empty.
-/
namespace Straightline.CommandLine

/-- The options that a command knows: those with a value, some with a letter, and the flags. -/
structure Known where
  options : List (String × Option Char)
  flags : List String

structure Arguments where
  values : List (String × String)
  flags : List String
  positional : List String
  deriving DecidableEq, Repr

namespace Arguments

def value? (a : Arguments) (name : String) : Option String :=
  a.values.lookup name

/-- Puts a value in; an option has one value, which is not empty. -/
def addValue? (a : Arguments) (name value : String) : Option Arguments :=
  if value.isEmpty || (a.value? name).isSome then none
  else some { a with values := (name, value) :: a.values }

/-- Puts a flag in; a flag is given once. -/
def addFlag? (a : Arguments) (name : String) : Option Arguments :=
  if a.flags.contains name then none else some { a with flags := name :: a.flags }

end Arguments

inductive Reading where
  | positional (text : String)
  | flag (name : String)
  | value (name value : String)
  | option (name : String)
  | unknown
  deriving DecidableEq, Repr

def looksLikeOption (text : String) : Bool :=
  match text.toList with
  | '-' :: _ :: _ => true
  | _ => false

namespace Known

/-- An option behind two dashes, with its value behind an equals sign if there is one. -/
def readLong (k : Known) (text : List Char) : Reading :=
  let name := String.ofList (text.takeWhile (· != '='))
  match text.dropWhile (· != '=') with
  | [] =>
    if k.flags.contains name then .flag name
    else if (k.options.lookup name).isSome then .option name
    else .unknown
  | _ :: value => if (k.options.lookup name).isSome then .value name (String.ofList value) else .unknown

/-- A one-letter option, with its value right behind it or behind an equals sign. -/
def readShort (k : Known) (letter : Char) (rest : List Char) : Reading :=
  match k.options.find? (·.2 == some letter) with
  | none => .unknown
  | some (name, _) =>
    match rest with
    | [] => .option name
    | '=' :: value => .value name (String.ofList value)
    | value => .value name (String.ofList value)

def read (k : Known) (text : String) : Reading :=
  match text.toList with
  | '-' :: '-' :: rest => k.readLong rest
  | '-' :: letter :: rest => k.readShort letter rest
  | _ => .positional text

/-- Sorts arguments, behind those already sorted. -/
def sortOnto (k : Known) (a : Arguments) : List String → Option Arguments
  | [] => some a
  | text :: rest =>
    if text = "--" then some { a with positional := a.positional ++ rest }
    else
      match k.read text with
      | .unknown => none
      | .positional text => k.sortOnto { a with positional := a.positional ++ [text] } rest
      | .flag name =>
        match a.addFlag? name with
        | some a => k.sortOnto a rest
        | none => none
      | .value name value =>
        match a.addValue? name value with
        | some a => k.sortOnto a rest
        | none => none
      | .option name =>
        match rest with
        | [] => none
        | value :: rest =>
          if looksLikeOption value then none
          else
            match a.addValue? name value with
            | some a => k.sortOnto a rest
            | none => none

def sort (k : Known) (texts : List String) : Option Arguments :=
  k.sortOnto ⟨[], [], []⟩ texts

end Known

structure CompileJob where
  file : String
  output : Option String
  config : Option String
  table : Option String
  emitTokens : Bool
  emitIr : Bool
  emitSymbols : Bool
  emitJson : Bool
  noComments : Bool
  deriving DecidableEq, Repr

/-- What the program is asked to do. -/
inductive Command where
  | compile (request : CompileJob)
  | table (output : Option String)
  deriving DecidableEq, Repr

namespace Command

def compileOptions : Known :=
  ⟨[("output", some 'o'), ("config", none), ("table", none)],
    ["emit-tokens", "emit-ir", "emit-symbols", "emit-json", "no-comments"]⟩

def compile? (texts : List String) : Option Command := do
  let a ← compileOptions.sort texts
  match a.positional with
  | [file] =>
    if file.isEmpty then none
    else
      return .compile {
        file
        output := a.value? "output"
        config := a.value? "config"
        table := a.value? "table"
        emitTokens := a.flags.contains "emit-tokens"
        emitIr := a.flags.contains "emit-ir"
        emitSymbols := a.flags.contains "emit-symbols"
        emitJson := a.flags.contains "emit-json"
        noComments := a.flags.contains "no-comments" }
  | _ => none

def tableOptions : Known :=
  ⟨[("output", some 'o')], []⟩

def table? (texts : List String) : Option Command := do
  let a ← tableOptions.sort texts
  if a.positional.isEmpty then return .table (a.value? "output") else none

end Command

/-- A command, and how often more output was asked for. -/
structure Invocation where
  verbosity : Nat
  command : Command
  deriving DecidableEq, Repr

namespace Invocation

/-- The number of requests for more output that an argument makes. -/
def verbose? (text : String) : Option Nat :=
  if text = "--verbose" then some 1
  else
    match text.toList with
    | '-' :: 'v' :: rest => if rest.all (· == 'v') then some (rest.length + 1) else none
    | _ => none

/-- Reads the arguments of a command line; requests for more output come before the command. -/
def readFrom (verbosity : Nat) : List String → Option Invocation
  | [] => none
  | "compile" :: rest => (Command.compile? rest).map (⟨verbosity, ·⟩)
  | "table" :: rest => (Command.table? rest).map (⟨verbosity, ·⟩)
  | text :: rest =>
    match verbose? text with
    | some n => readFrom (verbosity + n) rest
    | none => none

def read (texts : List String) : Option Invocation :=
  readFrom 0 texts

end Invocation

end Straightline.CommandLine
