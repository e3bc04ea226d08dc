import Repaint.Binary.Basic

/-!
# Screen geometry

Vectors, sizes and axis-aligned rectangles over double coordinates. A rectangle is given by its four edges
and may be inverted; `Rect.normalize` puts its edges in order. Read as a set of points it contains its left
and top edge and not its right and bottom edge.
-/

namespace Repaint

/-- A screen coordinate. -/
abbrev Coord := Binary Format.double

/-- A position on the screen, or the offset between two. -/
structure Vec where
  /-- The horizontal part, growing to the right. -/
  x : Coord
  /-- The vertical part, growing downwards. -/
  y : Coord
deriving DecidableEq, Inhabited

namespace Vec

/-- The screen's origin. -/
def zero : Vec := ⟨0, 0⟩

/-- Whether both parts compare as equal. -/
def agrees (a b : Vec) : Bool := a.x.agrees b.x && a.y.agrees b.y

instance : Add Vec := ⟨fun a b => ⟨a.x + b.x, a.y + b.y⟩⟩

end Vec

/-- A width and a height. -/
structure Size where
  width : Coord
  height : Coord
deriving DecidableEq, Inhabited

namespace Size

/-- No extent. -/
def zero : Size := ⟨0, 0⟩

/-- Whether both extents compare as equal. -/
def agrees (a b : Size) : Bool := a.width.agrees b.width && a.height.agrees b.height

end Size

/-- An axis-aligned rectangle, given by its edges. -/
structure Rect where
  left : Coord
  top : Coord
  right : Coord
  bottom : Coord
deriving DecidableEq, Inhabited

namespace Rect

/-- The rectangle whose edges are all zero. -/
def zero : Rect := ⟨0, 0, 0, 0⟩

/-- The rectangle with its edges in order. -/
def normalize (r : Rect) : Rect :=
  ⟨min r.left r.right, min r.top r.bottom, max r.left r.right, max r.top r.bottom⟩

/-- The rectangle of a size at a position. -/
def ofOrigin (origin : Vec) (size : Size) : Rect :=
  normalize ⟨origin.x, origin.y, origin.x + size.width, origin.y + size.height⟩

/-- Whether the rectangle covers no area. An edge that is not a number leaves it without area. -/
def isEmpty (r : Rect) : Bool := !(r.left < r.right && r.top < r.bottom)

/-- The horizontal extent. -/
def width (r : Rect) : Coord := r.right - r.left

/-- The vertical extent. -/
def height (r : Rect) : Coord := r.bottom - r.top

/-- The area. -/
def area (r : Rect) : Coord := r.width * r.height

/-- The rectangle moved by an offset. -/
def shift (r : Rect) (offset : Vec) : Rect :=
  ⟨r.left + offset.x, r.top + offset.y, r.right + offset.x, r.bottom + offset.y⟩

/-- The rectangle with its vertical edges moved outwards by `dx` and its horizontal ones by `dy`. -/
def grow (r : Rect) (dx dy : Coord) : Rect :=
  ⟨r.left - dx, r.top - dy, r.right + dx, r.bottom + dy⟩

/-- The smallest rectangle around two. -/
def hull (a b : Rect) : Rect :=
  ⟨min a.left b.left, min a.top b.top, max a.right b.right, max a.bottom b.bottom⟩

/-- The rectangle shared by two, without area where they share none. -/
def meet (a b : Rect) : Rect :=
  let left := max a.left b.left
  let top := max a.top b.top
  ⟨left, top, max (min a.right b.right) left, max (min a.bottom b.bottom) top⟩

/-- Whether two rectangles share area. -/
def overlaps (a b : Rect) : Bool :=
  max a.left b.left < min a.right b.right && max a.top b.top < min a.bottom b.bottom

/-- The union of two rectangles that share a full edge. -/
def join? (a b : Rect) : Option Rect :=
  if a.top.agrees b.top && a.bottom.agrees b.bottom
      && (a.right.agrees b.left || b.right.agrees a.left) then
    some ⟨min a.left b.left, a.top, max a.right b.right, a.bottom⟩
  else if a.left.agrees b.left && a.right.agrees b.right
      && (a.bottom.agrees b.top || b.bottom.agrees a.top) then
    some ⟨a.left, min a.top b.top, a.right, max a.bottom b.bottom⟩
  else none

/-- What is left of `a` without `b`, in up to four disjoint parts: the bands above and below `b` in the full
width of `a`, then the parts to the left and right of `b` in the rows that both have. -/
def minus (a b : Rect) : List Rect :=
  let above := if a.top < b.top then [⟨a.left, a.top, a.right, min b.top a.bottom⟩] else []
  let below := if b.bottom < a.bottom then [⟨a.left, max b.bottom a.top, a.right, a.bottom⟩] else []
  let top := max a.top b.top
  let bottom := min a.bottom b.bottom
  let beside :=
    if top < bottom then
      (if a.left < b.left then [⟨a.left, top, min b.left a.right, bottom⟩] else [])
        ++ (if b.right < a.right then [⟨max b.right a.left, top, a.right, bottom⟩] else [])
    else []
  above ++ below ++ beside

/-- The rectangle with its edges moved outwards to whole numbers; a direction in which the edges are not in
order has them moved inwards. -/
def toWhole (r : Rect) : Rect :=
  let wide := r.left < r.right
  let tall := r.top < r.bottom
  ⟨if wide then r.left.floor else r.left.ceil, if tall then r.top.floor else r.top.ceil,
    if wide then r.right.ceil else r.right.floor, if tall then r.bottom.ceil else r.bottom.floor⟩

end Rect

end Repaint
