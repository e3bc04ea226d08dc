import Repaint.History.Damage
import Repaint.History.Occlusion
import Repaint.History.Push

/-!
# Trace events

What the steps of a frame tell an observer: their outcomes, the times at which they begin and end, a summary
of the frame, and on request the links of its layers and the rectangles to be repainted. Counts are 32-bit
words, frame numbers and times 64-bit ones.
-/

namespace Repaint

/-- A step of the frame. -/
inductive Phase where
  | append
  | occlusion
  | damage
deriving DecidableEq, Inhabited

/-- A frame was pushed. -/
structure PushEvent where
  frame : UInt64 := 0
  generation : UInt64 := 0
  /-- The managed windows of the stack. -/
  candidates : UInt32 := 0
  layers : UInt32 := 0
  /-- The layers whose window was not in the last frame. -/
  newLayers : UInt32 := 0
  /-- The windows of the last frame that are gone. -/
  removed : UInt32 := 0
  capacity : UInt32 := 0
deriving DecidableEq, Inhabited

/-- The layers of a frame were marked. -/
structure OcclusionEvent where
  frame : UInt64 := 0
  visited : UInt32 := 0
  culled : UInt32 := 0
  occluders : UInt32 := 0
deriving DecidableEq, Inhabited

/-- The damage of a back buffer was collected. -/
structure DamageEvent where
  frame : UInt64 := 0
  age : UInt32 := 0
  full : Bool := false
  rects : UInt32 := 0
deriving DecidableEq, Inhabited

/-- A phase begins or ends. -/
structure PhaseMark where
  frame : UInt64 := 0
  phase : Phase
  /-- The time in nanoseconds. -/
  time : UInt64 := 0
deriving DecidableEq, Inhabited

/-- A whole frame in numbers; what was not recorded is zero. -/
structure Summary where
  frame : UInt64 := 0
  generation : UInt64 := 0
  layers : UInt32 := 0
  newLayers : UInt32 := 0
  removed : UInt32 := 0
  culled : UInt32 := 0
  damageFull : Bool := false
  damageRects : UInt32 := 0
  /-- The nanoseconds of the push. -/
  appendTime : UInt64 := 0
  /-- The nanoseconds of the marking. -/
  occlusionTime : UInt64 := 0
  /-- The nanoseconds of the damage query. -/
  damageTime : UInt64 := 0
deriving DecidableEq, Inhabited

/-- How a layer of the newest frame is linked. -/
structure Link where
  rank : Nat
  key : Key
  /-- The window's rank in the last frame. -/
  prevRank : Option Nat
  toPaint : Bool
deriving DecidableEq, Inhabited

/-- A rectangle of whole pixels. -/
structure PixelRect where
  x : Int
  y : Int
  width : Nat
  height : Nat
deriving DecidableEq, Inhabited

/-- What an observer is told. -/
inductive Event where
  | push (event : PushEvent)
  | occlusion (event : OcclusionEvent)
  | damage (event : DamageEvent)
  | phaseBegin (mark : PhaseMark)
  | phaseEnd (mark : PhaseMark)
  | summary (summary : Summary)
  /-- The links of the layers of a frame. -/
  | links (frame : UInt64) (links : List Link)
  /-- The rectangles to be repainted. -/
  | rects (frame : UInt64) (rects : List PixelRect)
deriving DecidableEq, Inhabited

/-! ## Events of outcomes -/

/-- The event of a push. -/
def PushReport.event (r : PushReport) : PushEvent where
  frame := .ofNat r.frame
  generation := r.generation
  candidates := .ofNat r.candidates
  layers := .ofNat r.layers
  newLayers := .ofNat r.newLayers
  removed := .ofNat r.removed
  capacity := .ofNat r.capacity

/-- The event of an occlusion marking. -/
def OcclusionReport.event (r : OcclusionReport) : OcclusionEvent where
  frame := .ofNat r.frame
  visited := .ofNat r.visited
  culled := .ofNat r.culled
  occluders := .ofNat r.occluders

/-- The event of a damage query. -/
def DamageReport.event (r : DamageReport) : DamageEvent where
  frame := .ofNat r.frame
  age := .ofNat r.age
  full := r.full
  rects := .ofNat r.rects

/-- The links of a frame's layers. -/
def Frame.links (f : Frame) : List Link :=
  f.layers.mapIdx (fun rank layer => ⟨rank, layer.key, layer.prevRank, layer.toPaint⟩)

/-- The smallest rectangle of whole pixels around a rectangle. Its position is brought into the range of
signed 32-bit words, its extents into that of unsigned ones. -/
def Rect.toPixels (r : Rect) : PixelRect :=
  let whole := r.normalize.toWhole
  let position := Binary.truncate (-pow2 31) (pow2 31 - 1)
  let extent (c : Coord) := (c.truncate 0 (pow2 32 - 1)).toNat
  ⟨position whole.left, position whole.top, extent whole.width, extent whole.height⟩

/-- A time in microseconds, as a double. -/
def microseconds (nanoseconds : UInt64) : Coord :=
  Binary.ofInt nanoseconds.toNat / Binary.ofInt 1000

end Repaint
