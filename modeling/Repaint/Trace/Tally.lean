import Repaint.Trace.Event

/-!
# Tallying a frame

A tally gathers what is told of one frame and sums it up at the end. Of each kind of note only the last one
counts, and a phase lasted from its last begin to its last end, but never less than no time.
-/

namespace Repaint

/-- What may be noted of a frame. -/
inductive Note where
  | began (phase : Phase) (time : UInt64)
  | ended (phase : Phase) (time : UInt64)
  | occlusion (event : OcclusionEvent)
  | damage (event : DamageEvent)
deriving DecidableEq, Inhabited

/-- What was noted of a frame so far. -/
structure Tally where
  push : PushEvent
  /-- The last marking. -/
  occlusion : Option OcclusionEvent := none
  /-- The last damage query. -/
  damage : Option DamageEvent := none
  /-- When each phase last began. -/
  begins : Phase → Option UInt64 := fun _ => none
  /-- When each phase last ended. -/
  ends : Phase → Option UInt64 := fun _ => none

namespace Tally

/-- The tally with one more note. -/
def note (t : Tally) : Note → Tally
  | .began phase time =>
    { t with begins := fun p => if p = phase then some time else t.begins p }
  | .ended phase time =>
    { t with ends := fun p => if p = phase then some time else t.ends p }
  | .occlusion event => { t with occlusion := some event }
  | .damage event => { t with damage := some event }

/-- How long a phase lasted; no time if its begin or its end is missing, or if it ended before it began. -/
def duration (t : Tally) (phase : Phase) : UInt64 :=
  match t.begins phase, t.ends phase with
  | some start, some stop => if start ≤ stop then stop - start else 0
  | _, _ => 0

/-- The frame in numbers. -/
def summary (t : Tally) : Summary where
  frame := t.push.frame
  generation := t.push.generation
  layers := t.push.layers
  newLayers := t.push.newLayers
  removed := t.push.removed
  culled := t.occlusion.elim 0 (·.culled)
  damageFull := t.damage.any (·.full)
  damageRects := t.damage.elim 0 (·.rects)
  appendTime := t.duration .append
  occlusionTime := t.duration .occlusion
  damageTime := t.duration .damage

end Tally

end Repaint
