import Repaint.History.Basic

/-!
# Damage of a back buffer

A back buffer that was last painted some frames ago is brought up to date by repainting all that has changed
since. `History.repaintArea` collects it frame by frame: windows that came, went, changed their looks or were
raised past another one with all they cover, others with the damage of their content. Then damage spreads
through translucent layers that blur what is beneath them.
-/

namespace Repaint

/-- What a damage query found. -/
structure DamageReport where
  frame : Nat := 0
  age : Nat := 0
  /-- Whether the whole screen has to be repainted. -/
  full : Bool := false
  /-- The number of rectangles to be repainted. -/
  rects : Nat := 0
deriving DecidableEq, Inhabited

namespace Layer

/-- The area with the layer's bounds and shadow added. -/
def addExtent (l : Layer) (area : Region) : Region := (area.add l.bounds).add l.shadowBounds

/-- Whether the layer shows a blur of what is beneath it. -/
def blurs (l : Layer) : Bool := !l.isOpaque && !(l.blurOpacity ≤ (0 : Opacity))

end Layer

/-! ## One frame to the next -/

/-- The area collected so far, and the highest rank that a window met so far had in the older frame. -/
structure ChangeSweep where
  /-- The area to be repainted. -/
  area : Region
  /-- The highest older rank met going up. -/
  highest : Option Nat := none
deriving DecidableEq

/-- Adds what has changed at one layer of the newer frame. A window whose older rank is below one already
met was raised past that one. -/
def ChangeSweep.visit (older : Frame) (s : ChangeSweep) (layer : Layer) : Except Fault ChangeSweep :=
  match layer.prevRank with
  | none => .ok { s with area := layer.addExtent s.area }
  | some prev => do
    let old ← older.layer prev
    let raised := s.highest.any (fun highest => prev < highest)
    let area :=
      if raised || layer.looksDifferent old then layer.addExtent (old.addExtent s.area)
      else s.area.union layer.damaged
    return ⟨area, some (s.highest.elim prev (max · prev))⟩

/-- Adds the extents of the layers that have no layer in the next frame. -/
def addVanished (older : Frame) (area : Region) : Region :=
  older.layers.foldl
    (fun area old => if old.nextRank.isNone then old.addExtent area else area) area

/-- Adds what has changed from one frame to the next. -/
def changesBetween (newer older : Frame) (area : Region) : Except Fault Region := do
  let s ← newer.layers.foldlM (ChangeSweep.visit older) { area }
  return addVanished older s.area

/-! ## Blur -/

/-- Adds to a layer's bounds what the blur of an area within reach spreads to. -/
def spreadInto (layer : Layer) (dx dy : Coord) (area : Region) : Region :=
  let bounds := layer.bounds
  let reach := bounds.grow dx dy
  if area.touches reach then
    (area.clip reach).rects.foldl (fun area rect => area.add ((rect.grow dx dy).meet bounds)) area
  else area

/-- Spreads an area through the blurring layers, bottom to top, so that a blur picks up the blurs
beneath it. -/
def spreadBlur (layers : List Layer) (blur : Size) (area : Region) : Region :=
  let dx := max blur.width 0
  let dy := max blur.height 0
  if dx.agrees 0 && dy.agrees 0 then area
  else
    layers.foldl (fun area layer => if layer.blurs then spreadInto layer dx dy area else area) area

/-! ## The whole span -/

/-- Whether two frames have nothing in common: another size, or another surface. -/
def Frame.replaced (newer older : Frame) : Bool :=
  !newer.size.agrees older.size || newer.generation != older.generation

/-- Whether a back buffer of an age is lost: its content is unknown, or the surface was replaced since. -/
def History.lostSince (h : History) (age : Nat) : Bool :=
  age = 0 || (List.range age).any (fun i => (h.frames.get i).replaced (h.frames.get (i + 1)))

/-- What has changed in the last `age` frames. -/
def History.changesSince (h : History) (age : Nat) : Except Fault Region :=
  (List.range age).foldlM
    (fun area i => changesBetween (h.frames.get i) (h.frames.get (i + 1)) area) Region.empty

/-- The screen area that has to be repainted to bring a back buffer of an age up to date, with blurs that
reach as far as `blur`. -/
def History.repaintArea (h : History) (age : Nat) (blur : Size) :
    Except Fault (DamageReport × Region) := do
  h.checkAge age
  let full := h.lostSince age
  let screen := h.newest.bounds
  let area ←
    if full then .ok (Region.ofRect screen)
    else (h.changesSince age).map (fun area => (spreadBlur h.newest.layers blur area).clip screen)
  return (⟨h.pushes, age, full, area.rects.length⟩, area)

end Repaint
