import Repaint.Geometry

/-!
# Regions

A region is a list of rectangles that are meant to be disjoint and to have area. Adding a rectangle clips
it against those already there and then merges rectangles that share a full edge; removing one splits the
rectangles it overlaps. Each operation fixes the order of the resulting list, so that two runs of the same
operations agree rectangle for rectangle.

Coordinates are doubles, so a shift may round two edges together. The operations that follow drop the
rectangles that lost their area.
-/

namespace Repaint

/-! ## Clipping and merging lists of rectangles -/

/-- What is left of some pieces without `hole`: the pieces it misses, then the parts of those it cuts. -/
def punch (pieces : List Rect) (hole : Rect) : List Rect :=
  pieces.filter (fun piece => !piece.overlaps hole)
    ++ (pieces.filter (fun piece => piece.overlaps hole)).flatMap (fun piece => piece.minus hole)

/-- The rectangles that have area. -/
def dropEmpty (rects : List Rect) : List Rect := rects.filter (fun r => !r.isEmpty)

/-- The list without its first element, the last one moved into its place. -/
def fillGap : List Rect → List Rect
  | [] => []
  | _ :: rest =>
    match rest.getLast? with
    | none => []
    | some last => last :: rest.dropLast

theorem length_fillGap (first : Rect) (rest : List Rect) :
    (fillGap (first :: rest)).length = rest.length := by
  cases rest with
  | nil => rfl
  | cons r rest => simp [fillGap, List.getLast?_cons]

/-- Joins to `grown`, from the front of `rest` on, each rectangle that shares a full edge with it. The last
rectangle takes the place of one that was joined and is looked at next. The second result lists the
rectangles that stay apart. -/
def absorb (grown : Rect) (rest : List Rect) : Rect × List Rect :=
  match rest with
  | [] => (grown, [])
  | r :: others =>
    match grown.join? r with
    | some joined => absorb joined (fillGap (r :: others))
    | none =>
      let result := absorb grown others
      (result.1, r :: result.2)
termination_by rest.length
decreasing_by
  · simp [length_fillGap]
  · simp

theorem length_absorb_le (grown : Rect) (rest : List Rect) :
    (absorb grown rest).2.length ≤ rest.length := by
  fun_induction absorb grown rest with
  | case1 => simp
  | case2 _ r others joined _ ih =>
    rw [length_fillGap] at ih
    simp only [List.length_cons]
    omega
  | case3 _ r others _ _ ih => simpa using ih

/-- One pass over the list: each rectangle in turn absorbs what it can of those behind it. -/
def mergePass : List Rect → List Rect
  | [] => []
  | r :: rest => (absorb r rest).1 :: mergePass (absorb r rest).2
termination_by rects => rects.length
decreasing_by
  have := length_absorb_le r rest
  simp only [List.length_cons]
  omega

/-- Passes over the list until one joins nothing. -/
def mergeAll (rects : List Rect) : List Rect :=
  if (mergePass rects).length < rects.length then mergeAll (mergePass rects) else mergePass rects
termination_by rects.length

theorem mergeAll_of_lt {rects : List Rect} (h : (mergePass rects).length < rects.length) :
    mergeAll rects = mergeAll (mergePass rects) := by
  rw [mergeAll, if_pos h]

theorem mergeAll_of_not_lt {rects : List Rect} (h : ¬ (mergePass rects).length < rects.length) :
    mergeAll rects = mergePass rects := by
  rw [mergeAll, if_neg h]

/-! ## Regions -/

/-- A set of screen points, as a list of rectangles. -/
structure Region where
  /-- The rectangles, in the order in which the operations leave them. -/
  rects : List Rect
deriving DecidableEq, Inhabited

namespace Region

/-- The region without points. -/
def empty : Region := ⟨[]⟩

/-- Whether the region has no rectangle. -/
def isEmpty (r : Region) : Bool := r.rects.isEmpty

/-! ### One rectangle -/

/-- The region with the points of a rectangle added. -/
def add (r : Region) (rect : Rect) : Region :=
  let rect := rect.normalize
  if rect.isEmpty then r
  else ⟨mergeAll (dropEmpty (r.rects ++ r.rects.foldl punch [rect]))⟩

/-- What there is to merge when a rectangle is added: the rectangles of the region, and what is left of the new one
outside of them. -/
def pieces (r : Region) (rect : Rect) : List Rect := dropEmpty (r.rects ++ r.rects.foldl punch [rect.normalize])

theorem add_of_isEmpty {r : Region} {rect : Rect} (h : rect.normalize.isEmpty = true) : r.add rect = r := if_pos h

theorem add_eq_mergeAll {r : Region} {rect : Rect} (h : rect.normalize.isEmpty = false) :
    r.add rect = ⟨mergeAll (r.pieces rect)⟩ := if_neg (Bool.eq_false_iff.mp h)

/-- The region without the points of a rectangle. -/
def remove (r : Region) (rect : Rect) : Region :=
  let rect := rect.normalize
  if rect.isEmpty then r else ⟨dropEmpty (punch r.rects rect)⟩

theorem remove_of_isEmpty {r : Region} {rect : Rect} (h : rect.normalize.isEmpty = true) : r.remove rect = r := if_pos h

theorem remove_eq_punch {r : Region} {rect : Rect} (h : rect.normalize.isEmpty = false) :
    r.remove rect = ⟨dropEmpty (punch r.rects rect.normalize)⟩ := if_neg (Bool.eq_false_iff.mp h)

/-- The points of the region that lie in a rectangle. -/
def clip (r : Region) (rect : Rect) : Region :=
  ⟨dropEmpty (r.rects.map (fun piece => piece.meet rect.normalize))⟩

/-- The region of one rectangle. -/
def ofRect (rect : Rect) : Region := empty.add rect

/-- The region of some rectangles. -/
def ofRects (rects : List Rect) : Region := rects.foldl add empty

/-! ### Two regions -/

/-- The region with every rectangle moved by an offset. -/
def shift (r : Region) (offset : Vec) : Region :=
  if offset.agrees Vec.zero then r else ⟨r.rects.map (fun rect => rect.shift offset)⟩

/-- The points of either region. -/
def union (r s : Region) : Region := s.rects.foldl add r

/-- The points of the first region that are not in the second. -/
def diff (r s : Region) : Region := s.rects.foldl remove r

/-- The points of both regions: each rectangle of the first cut with each of the second, in order. -/
def inter (r s : Region) : Region :=
  ⟨r.rects.flatMap (fun a => dropEmpty (s.rects.map (fun b => a.meet b)))⟩

/-- The points of the first region and those of the second moved by an offset. -/
def unionAt (r s : Region) (offset : Vec) : Region :=
  s.rects.foldl (fun acc rect => acc.add (rect.shift offset)) r

/-- The points of the first region without those of the second moved by an offset. -/
def diffAt (r s : Region) (offset : Vec) : Region :=
  s.rects.foldl (fun acc rect => acc.remove (rect.shift offset)) r

/-- The points of the first region that are also in the second moved by an offset. -/
def interAt (r s : Region) (offset : Vec) : Region :=
  ⟨r.rects.flatMap (fun a => dropEmpty (s.rects.map (fun b => a.meet (b.shift offset))))⟩

/-! ### Questions -/

/-- The smallest rectangle around the region; all edges are zero if it is empty. -/
def hull (r : Region) : Rect :=
  match r.rects with
  | [] => Rect.zero
  | first :: rest => rest.foldl Rect.hull first

/-- The area, added up in the order of the rectangles. -/
def area (r : Region) : Coord := r.rects.foldl (fun sum rect => sum + rect.area) 0

/-- Whether some point of a rectangle lies in the region. -/
def touches (r : Region) (rect : Rect) : Bool :=
  let rect := rect.normalize
  !rect.isEmpty && r.rects.any (fun piece => piece.overlaps rect)

/-- Whether every point of a rectangle lies in the region. -/
def contains (r : Region) (rect : Rect) : Bool := ((ofRect rect).diff r).isEmpty

/-- Whether two regions have the same area and the first lies in the second; however they are cut into
rectangles. -/
def sameSet (r s : Region) : Bool := r.area.agrees s.area && (r.diff s).isEmpty

end Region

end Repaint
