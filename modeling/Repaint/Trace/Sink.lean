import Repaint.Trace.Line
import Repaint.Trace.Record

/-!
# Sinks and tracers

A sink receives events: it records them, prints them, or lets them go. A tracer passes events on to a sink,
if it has one.
-/

namespace Repaint

/-- What receives events, with what it has made of them so far. -/
inductive Sink where
  | discard
  | recorder (bytes : List UInt8)
  | printer (text : String)
deriving DecidableEq, Inhabited

namespace Sink

/-- The sink after an event. -/
def receive : Sink → Event → Sink
  | .discard, _ => .discard
  | .recorder bytes, e => .recorder (bytes ++ e.record.bytes)
  | .printer text, e => .printer (text ++ e.line)

/-- What was recorded. -/
def bytes : Sink → List UInt8
  | .recorder bytes => bytes
  | _ => []

/-- What was printed. -/
def text : Sink → String
  | .printer text => text
  | _ => ""

end Sink

/-- A way for events to reach a sink, or to go nowhere. -/
structure Tracer where
  /-- The sink that is traced to. -/
  sink : Option Sink := none
deriving DecidableEq, Inhabited

namespace Tracer

/-- The tracer after it passed an event on. -/
def emit (t : Tracer) (e : Event) : Tracer := ⟨t.sink.map (fun sink => sink.receive e)⟩

/-- The tracer after it passed some events on, in order. -/
def emitAll (t : Tracer) (events : List Event) : Tracer := events.foldl emit t

end Tracer

/-- The text that stands for a value of a named type and shows nothing of it. -/
def concealedText (name : String) : String := name ++ " \x7b .. \x7d"

/-- The text that stands for a tracer. -/
def Tracer.text (_ : Tracer) : String := concealedText "Tracer"

/-- The text that stands for a printer of lines. -/
def printerText : String := concealedText "PrettyPrintSink"

end Repaint
