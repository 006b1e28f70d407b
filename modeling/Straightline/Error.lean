import Straightline.Instruction
import Straightline.ParseSymbol
import Straightline.Table.Entry

/-!
# Errors

Everything that can go wrong, as causes; `Error.message` holds all wording. Undeclared and unknown
identifiers are warnings, which are collected while the work goes on; every other error ends it.
-/
namespace Straightline

/-- Why a file cannot be read or written. -/
inductive FileError where
  | absent
  | notDirectory
  | isDirectory
  | nameTooLong
  | nulInName
  | notText
  | failed (text : String)
  deriving DecidableEq, Repr

def FileError.message : FileError → String
  | absent => "No such file or directory (os error 2)"
  | notDirectory => "Not a directory (os error 20)"
  | isDirectory => "Is a directory (os error 21)"
  | nameTooLong => "File name too long (os error 36)"
  | nulInName => "file name contained an unexpected NUL byte"
  | notText => "stream did not contain valid UTF-8"
  | failed text => text

/-- An agreement between parts that is broken. `stated` is for observers defined elsewhere. -/
inductive Invariant where
  | stackUnderflow
  | noSymbolTable
  | notIdentifier (found : ParseSymbol)
  | noValue (found : ParseSymbol)
  | immediateTarget (n : Int64)
  | shortStack (production : Production) (depth : Nat)
  | unsetVariable (v : Variable)
  | namelessVariable
  | usageSpent (v : Variable)
  | immediateOperand (i : Instruction)
  | immediateOutOfRange (i : Instruction)
  | refused (observer : String)
  | stated (text : String)
  deriving DecidableEq, Repr

def Invariant.message : Invariant → String
  | stackUnderflow => "value stack underflow"
  | noSymbolTable => "type propagator has no symbol table bound"
  | notIdentifier found => "expected identifier, found " ++ found.text
  | noValue found => found.text ++ " carries no IR value"
  | immediateTarget n => "assignment target is the immediate " ++ Decimal.text n
  | shortStack production depth =>
    "reduce by " ++ production.text ++ " pops " ++ toString production.body.length ++
      " symbols from a stack of " ++ toString depth
  | unsetVariable v => "read of unset variable " ++ v.text
  | namelessVariable => "placeholder variable reached the allocator"
  | usageSpent v => "usage counter for " ++ v.text ++ " is already exhausted"
  | immediateOperand i => "unnormalized immediate operand in " ++ i.text
  | immediateOutOfRange i => "addi immediate out of range in " ++ i.text
  | refused observer => "observer " ++ observer ++ " refused"
  | stated text => text

/-- A grammar, table or option set that cannot be used. -/
inductive Misconfiguration where
  | noProductions
  | notAugmented
  | noTransition (state : Nat) (kind : Kind)
  | misplacedProduction (index position : Nat)
  | initialOutOfRange (initial states : Nat)
  | danglingEntry (state : Nat) (kind : Kind) (entry : Entry)
  | danglingGoto (state : Nat) (head : NonTerminal) (target : Nat)
  | malformedJson
  | noRegisters
  | unnamedReturn
  | returnAllocatable (register : String)
  | emptyRegisterSet
  | repeatedRegister (register : String)
  | unreadable (path : String) (cause : FileError)
  | stated (text : String)
  deriving DecidableEq, Repr

def Misconfiguration.message : Misconfiguration → String
  | noProductions => "grammar has no productions"
  | notAugmented => "production 0 must be the augmented start rule with a single body symbol"
  | noTransition state kind => "state " ++ toString state ++ " has no transition on " ++ kind.label
  | misplacedProduction index position =>
    "production " ++ toString index ++ " is stored at position " ++ toString position
  | initialOutOfRange initial states =>
    "initial state " ++ toString initial ++ " out of range (" ++ toString states ++ " states)"
  | danglingEntry state kind entry =>
    "state " ++ toString state ++ " on " ++ kind.label ++ ": dangling entry " ++ entry.text
  | danglingGoto state head target =>
    "state " ++ toString state ++ " goto " ++ head.label ++ ": dangling state " ++ toString target
  | malformedJson => "<json>"
  | noRegisters => "at least one register is required"
  | unnamedReturn => "return register must be named"
  | returnAllocatable register => "return register " ++ register ++ " is also allocatable"
  | emptyRegisterSet => "register set is empty"
  | repeatedRegister register => "register " ++ register ++ " listed twice"
  | unreadable path cause => path ++ ": " ++ cause.message
  | stated text => text

/-- The errors of scanning, parsing and generating code. -/
inductive Error where
  | unexpectedCharacter (c : Char) (line column : Nat)
  | invalidInteger (text : String) (line : Nat)
  | unexpectedToken (state : Nat) (kind : Kind) (lexeme : String) (line column : Nat)
  | unexpectedEnd
  | missingGoto (state : Nat) (head : NonTerminal)
  | undeclaredIdentifier (name : String) (line column : Nat)
  | unknownIdentifier (name : String) (line column : Nat)
  | invariant (cause : Invariant)
  | unknownProduction (index : Nat)
  | registersExhausted (v : Variable) (capacity : Nat)
  | grammarConflict (state : Nat) (kind : Kind) (existing incoming : String)
  | configuration (cause : Misconfiguration)
  | stepLimit (steps : Nat)
  deriving DecidableEq, Repr

namespace Error

/-- The place of a fault, as messages give it. -/
def place (line column : Nat) : String :=
  "at line " ++ toString line ++ ", column " ++ toString column

def message : Error → String
  | unexpectedCharacter c line column =>
    "Unexpected character '" ++ c.toString ++ "' " ++ place line column
  | invalidInteger text line => "Invalid integer literal '" ++ text ++ "' at line " ++ toString line
  | unexpectedToken state kind lexeme line column =>
    "Parse error in state " ++ toString state ++ ": unexpected " ++ kind.label ++ " '" ++ lexeme ++
      "' " ++ place line column
  | unexpectedEnd => "Unexpected end of input"
  | missingGoto state head => "No goto entry for " ++ head.label ++ " in state " ++ toString state
  | undeclaredIdentifier name line column =>
    "Undeclared identifier '" ++ name ++ "' " ++ place line column
  | unknownIdentifier name line column =>
    "No such identifier in symbol table: '" ++ name ++ "' " ++ place line column
  | invariant cause => "IR invariant violated: " ++ cause.message
  | unknownProduction index => "No translation rule for production " ++ toString index
  | registersExhausted v capacity =>
    "Register pressure exceeds capacity: no register available for " ++ v.text ++ " (" ++
      toString capacity ++ " registers, all live)"
  | grammarConflict state kind existing incoming =>
    "Grammar conflict in state " ++ toString state ++ " on " ++ kind.label ++ ": " ++ existing ++
      " vs " ++ incoming
  | configuration cause => "Configuration error: " ++ cause.message
  | stepLimit steps => "No result after " ++ toString steps ++ " parse steps"

/-- Whether an error is collected while the work goes on. -/
def isWarning : Error → Bool
  | undeclaredIdentifier .. | unknownIdentifier .. => true
  | _ => false

/-- Whether an error is lexical or syntactic. -/
def isParseError : Error → Bool
  | unexpectedCharacter .. | invalidInteger .. | unexpectedToken .. | unexpectedEnd
  | missingGoto .. => true
  | _ => false

end Error

end Straightline
