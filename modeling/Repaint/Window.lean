import Repaint.Region.Basic

/-!
# Windows

The state of a window as the window manager hands it over once per frame. Layout writes back two things
only: it clears the pending damage of the windows it looks at, and occlusion marking sets the paint flag.
A window stack is a list of windows, topmost first.
-/

namespace Repaint

/-- A number of the single format: an opacity between zero and one, or any other number handed over as one. -/
abbrev Opacity := Binary Format.single

/-- The identity of a window across frames. -/
structure Key where
  handle : UInt32
deriving DecidableEq, Inhabited

namespace Key

/-- Whether a key comes before another one. -/
def le (a b : Key) : Bool := a.handle ≤ b.handle

/-- The handle in hexadecimal. -/
def text (key : Key) : String :=
  "LayerKey(0x" ++ String.ofList (Nat.toDigits 16 key.handle.toNat) ++ ")"

end Key

/-- The shadow of a window, relative to the window's origin. -/
structure Shadow where
  /-- The offset of the shadow's top left corner. -/
  offset : Vec
  size : Size
deriving DecidableEq, Inhabited

/-- A window of the stack. -/
structure Window where
  key : Key := ⟨0⟩
  /-- Whether the window takes part in layout at all. -/
  managed : Bool := true
  /-- Whether the window has ever had content. -/
  everDamaged : Bool := true
  /-- Whether the window is kept from being painted. -/
  paintExcluded : Bool := false
  /-- The top left corner on the screen. -/
  origin : Vec := Vec.zero
  /-- The size, border included. -/
  size : Size := Size.zero
  /-- The shadow, if the window has one. -/
  shadow : Option Shadow := none
  /-- The opacity of the window's content. -/
  opacity : Opacity := 1
  /-- The opacity that the window fades from; the blur behind it fades in proportion. -/
  fadeTarget : Opacity := 1
  /-- Whether the window's outline is not a rectangle. -/
  shaped : Bool := false
  /-- Whether the content has transparent parts. -/
  hasAlpha : Bool := false
  /-- Whether the window clips what is beneath it even where it is transparent. -/
  clipsBelow : Bool := false
  /-- The damage since the last frame, relative to the window's origin. -/
  pending : Region := Region.empty
  /-- Whether the window has to be painted, once occlusion marking has said so. -/
  toPaint : Option Bool := none
deriving DecidableEq

instance : Inhabited Window := ⟨{}⟩

namespace Window

/-- The window with its pending damage taken away. -/
def clearPending (w : Window) : Window := { w with pending := Region.empty }

end Window

end Repaint
