import Straightline.Assembly
import Straightline.NormalForm
import Straightline.Observer.Trace
import Straightline.Observer.Emitter
import Straightline.Observer.Typing
import Straightline.Options
import Straightline.Scanner
import Straightline.Table.Slr

/-!
# Compilation

From a source text to assembly: the text is scanned, the tokens are parsed while types are entered
and code is emitted, the code is brought to normal form, and registers are allocated for it.
-/
namespace Straightline

/-- The observers of a compilation, told in this order, and the symbol table they work on. -/
structure Analysis where
  symbols : Symbols
  typing : Typing
  emitter : Emitter
  trace : Trace

namespace Analysis

def ofSymbols (symbols : Symbols) : Analysis :=
  ⟨symbols, { Typing.empty with bound := true }, .empty, .empty⟩

def observeTyping (m : Move) : EStateM Error Analysis Unit := fun a =>
  match Typing.observe m (a.symbols, a.typing) with
  | .ok () (symbols, typing) => .ok () { a with symbols, typing }
  | .error e (symbols, typing) => .error e { a with symbols, typing }

def observeEmitter (m : Move) : EStateM Error Analysis Unit := fun a =>
  match Emitter.observe m a.emitter with
  | .ok () emitter => .ok () { a with emitter }
  | .error e emitter => .error e { a with emitter }

def observeTrace (m : Move) : EStateM Error Analysis Unit := fun a =>
  match Trace.observe m a.trace with
  | .ok () trace => .ok () { a with trace }
  | .error e trace => .error e { a with trace }

def observe : Observer Analysis := fun m => do
  observeTyping m
  observeEmitter m
  observeTrace m

end Analysis

/-- All that a compilation makes. -/
structure Compilation where
  tokens : List Token
  symbols : Symbols
  events : List Event
  program : Program
  normalized : Program
  assembly : Assembly
  diagnostics : List Error

namespace Compilation

/-- Compiles what the observers have made of tokens. -/
def ofAnalysis (o : Options) (tokens : List Token) (a : Analysis) : Except Error Compilation := do
  let program := a.emitter.program
  let normalized := program.normalize.program
  let instructions := normalized.instructions
  let registers ← Registers.ofNames o.registers (.ofInstructions instructions)
  let assembly ← Target.generate ⟨o.returnRegister, o.comments⟩ instructions registers
  return {
    tokens, program, normalized, assembly
    symbols := a.symbols
    events := a.trace.events
    diagnostics := a.typing.diagnostics }

/-- Compiles tokens whose identifiers are in the symbol table. -/
def ofTokens (o : Options) (t : Control) (tokens : List Token) (symbols : Symbols) :
    Except Error Compilation :=
  match t.run Analysis.observe tokens (.ofSymbols symbols) with
  | .error e _ => .error e
  | .ok () a => ofAnalysis o tokens a

def ofSource (o : Options) (t : Control) (source : String) : Except Error Compilation :=
  match Scanner.scan (.ofSource source, .empty) with
  | .error e _ => .error e
  | .ok tokens (_, symbols) => ofTokens o t tokens symbols

def warnings (c : Compilation) : List String :=
  c.diagnostics.map (·.message)

end Compilation

end Straightline
