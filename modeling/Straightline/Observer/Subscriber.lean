import Straightline.Observer.Recorder
import Straightline.Observer.Trace
import Straightline.Observer.Emitter
import Straightline.Observer.Typing
import Straightline.Scanner

/-!
# Subscribers

The observers of this library as one type, so that any list of them can follow a run. They share
the symbol table and the recorders' journal.
-/
namespace Straightline

structure Shared where
  symbols : Symbols
  journal : Journal

inductive Subscriber where
  | typing (t : Typing)
  | emitter (t : Emitter)
  | trace (t : Trace)
  | recorder (r : Recorder)

namespace Subscriber

/-- Gives a subscriber the symbol table. -/
def bind : Subscriber → Subscriber
  | typing t => typing { t with bound := true }
  | recorder r => recorder { r with bound := true }
  | s => s

def observe : Observer (Shared × Subscriber) := fun m (w, s) =>
  match s with
  | typing t =>
    match Typing.observe m (w.symbols, t) with
    | .ok () (symbols, t) => .ok () ({ w with symbols }, typing t)
    | .error e (symbols, t) => .error e ({ w with symbols }, typing t)
  | emitter t =>
    match Emitter.observe m t with
    | .ok () t => .ok () (w, emitter t)
    | .error e t => .error e (w, emitter t)
  | trace t =>
    match Trace.observe m t with
    | .ok () t => .ok () (w, trace t)
    | .error e t => .error e (w, trace t)
  | recorder r =>
    match Recorder.observe m (w.journal, r) with
    | .ok () (journal, r) => .ok () ({ w with journal }, recorder r)
    | .error e (journal, r) => .error e ({ w with journal }, recorder r)

/-- A run that subscribers follow, bound to the symbol table and told in order. -/
def follow (t : Control) (tokens : List Token) : EStateM Error (Shared × List Subscriber) Unit :=
  fun (w, subscribers) => t.run (Observer.all observe) tokens (w, subscribers.map bind)

/-- A run over a source text, which is scanned into the shared symbol table. -/
def followSource (t : Control) (source : String) :
    EStateM Error (Shared × List Subscriber) Unit := fun (w, subscribers) =>
  match Scanner.scan (.ofSource source, w.symbols) with
  | .error e (_, symbols) => .error e ({ w with symbols }, subscribers.map bind)
  | .ok tokens (_, symbols) => follow t tokens ({ w with symbols }, subscribers)

end Subscriber

end Straightline
