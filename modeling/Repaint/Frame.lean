import Repaint.Fault
import Repaint.Layer

/-!
# Frames

A frame is an ordered list of layers, bottom to top; the place of a layer in that list is its rank. The
storage of a frame only grows: the slots behind the layers are spare and are filled again when the frame is
reused.
-/

namespace Repaint

/-- The layers of one frame. -/
structure Frame where
  size : Size := Size.zero
  /-- The tag of the surface the frame was made for; another tag means that nothing can be reused. -/
  generation : UInt64 := 0
  /-- The layers, bottom to top. -/
  layers : List Layer := []
  /-- The slots that are not in use, with whatever they last held. -/
  spare : List Layer := []
deriving DecidableEq, Inhabited

namespace Frame

/-- A frame without layers that has `slots` spare slots. -/
def blank (slots : Nat) : Frame := { spare := List.replicate slots ({} : Layer) }

/-- The screen rectangle. -/
def bounds (f : Frame) : Rect := Rect.ofOrigin Vec.zero f.size

/-- The number of slots, spare ones included. -/
def capacity (f : Frame) : Nat := f.layers.length + f.spare.length

/-- The layer of a rank. -/
def layer (f : Frame) (rank : Nat) : Except Fault Layer :=
  match f.layers[rank]? with
  | some layer => .ok layer
  | none => .error (.rankOutOfRange rank f.layers.length)

/-- The lowest rank at which a window stands. -/
def find? (f : Frame) (key : Key) : Option Nat :=
  f.layers.findIdx? (fun layer => layer.key = key)

/-- All slots, grown to at least `count` with blank ones. -/
def slots (f : Frame) (count : Nat) : List Layer :=
  f.layers ++ f.spare ++ List.replicate (count - f.capacity) ({} : Layer)

end Frame

end Repaint
