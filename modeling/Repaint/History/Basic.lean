import Repaint.RankIndex
import Repaint.Ring

/-!
# The frame history

A history keeps the newest frame and a fixed number of older ones. A frame is named by its age: the newest
has age 0. Before anything was pushed every frame is blank, with zero size and generation 0.
-/

namespace Repaint

/-- How much a history keeps. -/
structure Config where
  /-- The age of the oldest frame that is kept, at least 1. -/
  maxAge : Nat := 5
  /-- The number of layer slots that every frame has from the start. -/
  reserve : Nat := 0
deriving DecidableEq, Inhabited

/-- The number of frames that are kept. -/
def Config.capacity (config : Config) : Nat := config.maxAge + 1

/-- The newest frames, the rank of every window in the newest one, and the screen area that the last occlusion
marking left over. -/
structure History where
  /-- The frames that are kept. -/
  frames : Ring Frame
  /-- The rank of every window of the newest frame. -/
  index : RankIndex := {}
  /-- The dirty area that no layer hid in the last occlusion marking. -/
  uncovered : Region := Region.empty
  /-- The number of frames pushed so far. -/
  pushes : Nat := 0
deriving DecidableEq

namespace History

/-- A history of blank frames. -/
def start (config : Config) : Except Fault History :=
  if config.maxAge = 0 then .error .zeroMaxAge
  else .ok { frames := Ring.replicate config.maxAge (Frame.blank config.reserve) }

/-- The number of frames that are kept. -/
def capacity (h : History) : Nat := h.frames.capacity

/-- The age of the oldest frame that is kept. -/
def maxAge (h : History) : Nat := h.capacity - 1

/-- The newest frame. -/
def newest (h : History) : Frame := h.frames.get 0

/-- Refuses an age beyond the oldest frame that is kept. -/
def checkAge (h : History) (age : Nat) : Except Fault Unit :=
  if age ≤ h.maxAge then .ok () else .error (.ageOutOfRange age h.maxAge)

/-- The frame of an age. -/
def frame (h : History) (age : Nat) : Except Fault Frame := do
  h.checkAge age
  return h.frames.get age

/-- The layer of a rank in the frame of an age. -/
def layer (h : History) (age rank : Nat) : Except Fault Layer := do
  (← h.frame age).layer rank

/-- The rank of a window in the newest frame. -/
def rank? (h : History) (key : Key) : Option Nat := h.index.get? key

end History

end Repaint
