import Repaint.Trace.Event

/-!
# Records

A recording is a sequence of records without separators. A record is a tag byte and the fields of an event in
a fixed order: words with their lowest byte first, a flag as one byte, a phase as one byte. Of links and
rectangles only the number is recorded.
-/

namespace Repaint

/-- An event as a recording holds it. -/
inductive Record where
  | push (event : PushEvent)
  | occlusion (event : OcclusionEvent)
  | damage (event : DamageEvent)
  | phaseBegin (mark : PhaseMark)
  | phaseEnd (mark : PhaseMark)
  | summary (summary : Summary)
  /-- The number of layers whose links were told. -/
  | linkCount (frame : UInt64) (count : UInt32)
  /-- The number of rectangles to be repainted. -/
  | rectCount (frame : UInt64) (count : UInt32)
deriving DecidableEq, Inhabited

/-- A length as a word; lengths beyond the largest word count as that. -/
def cappedCount (length : Nat) : UInt32 := .ofNat (min length (pow2 32 - 1))

/-- What a recording holds of an event. -/
def Event.record : Event → Record
  | .push e => .push e
  | .occlusion e => .occlusion e
  | .damage e => .damage e
  | .phaseBegin m => .phaseBegin m
  | .phaseEnd m => .phaseEnd m
  | .summary s => .summary s
  | .links frame told => .linkCount frame (cappedCount told.length)
  | .rects frame told => .rectCount frame (cappedCount told.length)

/-! ## Writing -/

/-- The lowest `count` bytes of a number, lowest first. -/
def bytesOfNat : Nat → Nat → List UInt8
  | 0, _ => []
  | count + 1, n => UInt8.ofNat n :: bytesOfNat count (n / 256)

/-- A 32-bit word in bytes. -/
def word32 (w : UInt32) : List UInt8 := bytesOfNat 4 w.toNat

/-- A 64-bit word in bytes. -/
def word64 (w : UInt64) : List UInt8 := bytesOfNat 8 w.toNat

/-- A flag as a byte. -/
def flagByte (flag : Bool) : UInt8 := if flag then 1 else 0

/-- A phase as a byte. -/
def Phase.byte : Phase → UInt8
  | .append => 0
  | .occlusion => 1
  | .damage => 2

/-- A phase mark in bytes. -/
def PhaseMark.bytes (m : PhaseMark) : List UInt8 := word64 m.frame ++ m.phase.byte :: word64 m.time

/-- A record in bytes: its tag and its fields. -/
def Record.bytes : Record → List UInt8
  | .push e =>
    1 :: (word64 e.frame ++ word64 e.generation ++ word32 e.candidates ++ word32 e.layers
      ++ word32 e.newLayers ++ word32 e.removed ++ word32 e.capacity)
  | .occlusion e =>
    2 :: (word64 e.frame ++ word32 e.visited ++ word32 e.culled ++ word32 e.occluders)
  | .damage e =>
    3 :: (word64 e.frame ++ word32 e.age ++ flagByte e.full :: word32 e.rects)
  | .phaseBegin m => 4 :: m.bytes
  | .phaseEnd m => 5 :: m.bytes
  | .summary s =>
    6 :: (word64 s.frame ++ word64 s.generation ++ word32 s.layers ++ word32 s.newLayers
      ++ word32 s.removed ++ word32 s.culled ++ flagByte s.damageFull :: word32 s.damageRects
      ++ word64 s.appendTime ++ word64 s.occlusionTime ++ word64 s.damageTime)
  | .linkCount frame count => 7 :: (word64 frame ++ word32 count)
  | .rectCount frame count => 8 :: (word64 frame ++ word32 count)

/-- The recording of some events. -/
def recording (events : List Event) : List UInt8 := events.flatMap (fun e => e.record.bytes)

end Repaint
