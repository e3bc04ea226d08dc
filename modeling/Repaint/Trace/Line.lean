import Repaint.Binary.Decimal
import Repaint.Trace.Event

/-!
# Events as lines of text

One line for each event: a label in brackets, the frame number, and what the event tells. A line is a list of
pieces, fixed words and values in turn, and its text is that of its pieces. Times are in microseconds with
one decimal.
-/

namespace Repaint

/-- The name of a phase in a line. -/
def Phase.name : Phase → String
  | .append => "append"
  | .occlusion => "occlusion"
  | .damage => "damage"

/-- A piece of a line. -/
inductive Piece where
  | words (s : String)
  | number (n : Nat)
  /-- Whether all or a part of the screen is repainted. -/
  | extent (full : Bool)
  | phase (p : Phase)
  /-- A time in nanoseconds. -/
  | time (nanoseconds : UInt64)
deriving DecidableEq

namespace Piece

/-- The text of a piece. -/
def text : Piece → String
  | .words s => s
  | .number n => toString n
  | .extent full => if full then "FULL" else "partial"
  | .phase p => p.name
  | .time nanoseconds => (microseconds nanoseconds).tenths ++ "µs"

/-- The value of a 32-bit word. -/
def word32 (w : UInt32) : Piece := .number w.toNat

/-- The value of a 64-bit word. -/
def word64 (w : UInt64) : Piece := .number w.toNat

end Piece

/-- The pieces of a phase mark, behind its label. -/
def PhaseMark.pieces (m : PhaseMark) : List Piece :=
  [.words " frame=", .word64 m.frame, .words " ", .phase m.phase, .words " at ", .time m.time]

/-- The pieces of an event's line. -/
def Event.pieces : Event → List Piece
  | .push e =>
    [.words "[append] frame=", .word64 e.frame, .words " gen=", .word64 e.generation,
      .words " layers=", .word32 e.layers, .words "/", .word32 e.candidates,
      .words " new=", .word32 e.newLayers, .words " removed=", .word32 e.removed,
      .words " capacity=", .word32 e.capacity]
  | .occlusion e =>
    [.words "[occlusion] frame=", .word64 e.frame, .words " visited=", .word32 e.visited,
      .words " culled=", .word32 e.culled, .words " opaque=", .word32 e.occluders]
  | .damage e =>
    [.words "[damage] frame=", .word64 e.frame, .words " age=", .word32 e.age, .words " ",
      .extent e.full, .words " rects=", .word32 e.rects]
  | .phaseBegin m => .words "[phase:begin]" :: m.pieces
  | .phaseEnd m => .words "[phase:end]" :: m.pieces
  | .summary s =>
    [.words "[summary] frame=", .word64 s.frame, .words " layers=", .word32 s.layers,
      .words " new=", .word32 s.newLayers, .words " removed=", .word32 s.removed,
      .words " culled=", .word32 s.culled, .words " damage=", .extent s.damageFull,
      .words "/", .word32 s.damageRects, .words " append=", .time s.appendTime,
      .words " occlusion=", .time s.occlusionTime, .words " damage=", .time s.damageTime]
  | .links frame told =>
    [.words "[links] frame=", .word64 frame, .words " layers=", .number told.length,
      .words " linked=", .number (told.countP (fun link => link.prevRank.isSome))]
  | .rects frame told =>
    [.words "[damage:rects] frame=", .word64 frame, .words " rects=", .number told.length]

/-- The line of an event. -/
def Event.line (e : Event) : String := String.join (e.pieces.map Piece.text) ++ "\n"

end Repaint
