import Repaint.History.Basic

/-!
# Following a window through time

Layers of one window in neighbouring frames are linked by their ranks. `History.track` follows the links
between the newest frame and one of a given age, in either direction; `History.windowDamage` collects the
damage of a window on the way back.
-/

namespace Repaint

/-- The direction in which links are followed. -/
inductive Direction where
  /-- From the newest frame to older ones. -/
  | older
  /-- From an older frame to the newest one. -/
  | newer
deriving DecidableEq, Inhabited

namespace History

/-- Follows a window for `steps` frames from the frame of an age to older ones. -/
def trackOlder (h : History) : Nat → Nat → Nat → Except Fault (Option Nat)
  | 0, _, rank => .ok (some rank)
  | steps + 1, age, rank => do
    let layer ← (h.frames.get age).layer rank
    match layer.prevRank with
    | none => return none
    | some prev => h.trackOlder steps (age + 1) prev

/-- Follows a window from the frame of an age to the newest one. -/
def trackNewer (h : History) : Nat → Nat → Except Fault (Option Nat)
  | 0, rank => .ok (some rank)
  | age + 1, rank => do
    let layer ← (h.frames.get (age + 1)).layer rank
    match layer.nextRank with
    | none => return none
    | some next => h.trackNewer age next

/-- The rank, at the other end, of the window that stands at `rank` in the newest frame (going to older ones)
or in the frame of the given age (going to newer ones). There is none if the window is missing from a
frame on the way. -/
def track (h : History) (age rank : Nat) (direction : Direction) : Except Fault (Option Nat) := do
  h.checkAge age
  match direction with
  | .older => do
    let _ ← h.newest.layer rank
    h.trackOlder age 0 rank
  | .newer => do
    let _ ← (h.frames.get age).layer rank
    h.trackNewer age rank

/-- Adds the damage of a window in the `steps` frames before the one of an age, where it has `layer`. -/
def collectBack (h : History) (wanted : Nat) :
    Nat → Nat → Layer → Region → Except Fault Region
  | 0, _, _, area => .ok area
  | steps + 1, age, layer, area =>
    match layer.prevRank with
    | none => .error (.missingLayer layer.key (age + 1) wanted)
    | some prev => do
      let old ← (h.frames.get (age + 1)).layer prev
      h.collectBack wanted steps (age + 1) old (area.union old.damaged)

/-- Adds to an area the damage that the window at a rank of the newest frame had in that frame and in the
`age` frames before. -/
def windowDamage (h : History) (rank age : Nat) (area : Region) : Except Fault Region := do
  h.checkAge age
  let layer ← h.newest.layer rank
  h.collectBack age age 0 layer (area.union layer.damaged)

end History

end Repaint
