import Repaint.Window

/-!
# Layers

A layer is what one window contributes to one frame: its place and shadow on the screen, its opacities, its
damage in screen coordinates, and its rank in the neighbouring frames.

`Layer.refresh` fills a layer from a window. It stops at the first reason not to paint the window and leaves
what it has written until then, so a layer that is reused keeps the rest of its old content.
-/

namespace Repaint

/-- What one window contributes to one frame. -/
structure Layer where
  key : Key := ⟨0⟩
  /-- The window's place in the stack that the frame was made from. -/
  window : Nat := 0
  /-- The window's damage in this frame, in screen coordinates. -/
  damaged : Region := Region.empty
  /-- The top left corner on the screen. -/
  origin : Vec := Vec.zero
  size : Size := Size.zero
  /-- The top left corner of the shadow on the screen. -/
  shadowOrigin : Vec := Vec.zero
  /-- The shadow's size, zero without one. -/
  shadowSize : Size := Size.zero
  opacity : Opacity := 0
  /-- The opacity of the blur behind the window. -/
  blurOpacity : Opacity := 0
  /-- Whether the layer hides all beneath its bounds. -/
  isOpaque : Bool := false
  /-- Whether the layer clips what is beneath it. -/
  isClipping : Bool := false
  /-- The window's rank in the frame before, if it was there. -/
  prevRank : Option Nat := none
  /-- The window's rank in the frame after, if it is there. -/
  nextRank : Option Nat := none
  /-- Whether the layer has to be painted. -/
  toPaint : Bool := false
deriving DecidableEq

instance : Inhabited Layer := ⟨{}⟩

/-- The opacity of the blur behind a window that fades from `target`: none where the target is zero or the
quotient is not finite. -/
def fadedBlur (opacity target : Opacity) : Opacity :=
  if target.agrees 0 then 0 else (opacity / target).orZero

namespace Layer

/-- The window's rectangle on the screen. -/
def bounds (l : Layer) : Rect := Rect.ofOrigin l.origin l.size

/-- The shadow's rectangle on the screen. -/
def shadowBounds (l : Layer) : Rect := Rect.ofOrigin l.shadowOrigin l.shadowSize

/-- Whether the window looks different in two layers, its content aside. -/
def looksDifferent (a b : Layer) : Bool :=
  !a.origin.agrees b.origin || !a.size.agrees b.size
    || !a.shadowOrigin.agrees b.shadowOrigin || !a.shadowSize.agrees b.shadowSize
    || !a.opacity.agrees b.opacity || !a.blurOpacity.agrees b.blurOpacity
    || a.isOpaque != b.isOpaque || a.isClipping != b.isClipping

/-- Whether the layer has a width and a height; sizes that are not numbers count as none. -/
def hasExtent (l : Layer) : Bool := (0 : Coord) < l.size.width && (0 : Coord) < l.size.height

/-- Whether the layer lies beyond one of the frame's edges. -/
def isOutside (l : Layer) (frame : Size) : Bool :=
  l.origin.x + l.size.width ≤ (0 : Coord) || l.origin.y + l.size.height ≤ (0 : Coord)
    || frame.width ≤ l.origin.x || frame.height ≤ l.origin.y

/-! ## Filling a layer from a window -/

/-- The layer at the window's place. -/
def place (l : Layer) (w : Window) : Layer := { l with origin := w.origin, size := w.size }

/-- The layer with the window's shadow, moved to the layer's origin. -/
def castShadow (l : Layer) (w : Window) : Layer :=
  match w.shadow with
  | some shadow => { l with shadowOrigin := l.origin + shadow.offset, shadowSize := shadow.size }
  | none => { l with shadowOrigin := Vec.zero, shadowSize := Size.zero }

/-- The layer with the window's opacities, cleared of values that are not finite. -/
def fade (l : Layer) (w : Window) : Layer :=
  let opacity := w.opacity.orZero
  { l with opacity := opacity, blurOpacity := fadedBlur opacity w.fadeTarget }

/-- Whether neither the window nor the blur behind it can be seen. -/
def isTransparent (l : Layer) : Bool := l.opacity.agrees 0 && l.blurOpacity.agrees 0

/-- The layer with the window's damage and identity, not yet linked to other frames. Windows with an outline
of their own count as transparent. -/
def adopt (l : Layer) (w : Window) (index : Nat) : Layer :=
  { l with
    damaged := w.pending.shift l.origin
    isOpaque := !w.hasAlpha && l.opacity.agrees 1 && !w.shaped
    isClipping := w.clipsBelow
    prevRank := none
    nextRank := none
    key := w.key
    window := index
    toPaint := true }

/-- Fills the layer from the window at place `index` of the stack, for a frame of the given size. The first
result says whether the window is to be painted: it has had content and is not excluded, has a size and lies
in the frame, and it or the blur behind it can be seen. -/
def refresh (l : Layer) (w : Window) (index : Nat) (frame : Size) : Bool × Layer :=
  if !w.everDamaged || w.paintExcluded then (false, l)
  else
    let placed := l.place w
    if !placed.hasExtent || placed.isOutside frame then (false, placed)
    else
      let seen := (placed.castShadow w).fade w
      if seen.isTransparent then (false, seen) else (true, seen.adopt w index)

end Layer

end Repaint
