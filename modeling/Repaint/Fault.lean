import Repaint.Window

/-!
# Faults

The reasons for which an operation on the frame history is refused, and their wording.
-/

namespace Repaint

/-- Why an operation was refused. -/
inductive Fault where
  /-- A history that keeps no frame but the newest cannot link windows. -/
  | zeroMaxAge
  /-- A frame older than the oldest one kept was asked for. -/
  | ageOutOfRange (age max : Nat)
  /-- A frame has no layer of this rank. -/
  | rankOutOfRange (rank count : Nat)
  /-- A list has no element at this place. -/
  | indexOutOfRange (index count : Nat)
  /-- Two windows that were not in the last frame came with the same key. -/
  | duplicateKey (key : Key)
  /-- A window was missing from one of the frames that were asked for. -/
  | missingLayer (key : Key) (step wanted : Nat)
deriving DecidableEq, Inhabited

/-- The wording of a fault. -/
def Fault.message : Fault → String
  | .zeroMaxAge => "max_buffer_age must be at least 1"
  | .ageOutOfRange age max => s!"buffer age {age} out of range (max {max})"
  | .rankOutOfRange rank count => s!"rank {rank} out of range (len {count})"
  | .indexOutOfRange index count =>
    s!"index out of bounds: the len is {count} but the index is {index}"
  | .duplicateKey key => "duplicate layer key " ++ key.text ++ " in one layout"
  | .missingLayer key step wanted =>
    "window " ++ key.text ++ s!" has no layer {step} frames back (wanted {wanted})"

end Repaint
