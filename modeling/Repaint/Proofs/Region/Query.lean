import Repaint.Proofs.Region.Program

/-!
# Questions about regions

The questions that change nothing are questions about sets of points: `run_answers` says so of every register after
every program.

* **order** — no program turns the edges of a rectangle round (`Region.Upright`): a rectangle is put in order when it
  comes in, cutting leaves rectangles with area only, and a shift, rounded or not, keeps the order of the edges. An edge
  that is not a number comes from a shift alone; where there is one, a rectangle may touch what has no point
  (`touches_nowhere`);
* **touching** — `Region.touches_iff_clip`: what the overlap test says of each rectangle, cutting them all to the
  other rectangle says too;
* **containing** — `Region.contains_iff`: what the region takes away from the rectangle, one rectangle after the other,
  is all of it, into however many pieces it falls on the way;
* **the hull** — `Region.encloses_hull_iff`: another rectangle encloses it iff it encloses all of the region's.
-/

namespace Repaint

/-! ## Edges in order -/

/-- No edge lies beyond the opposite one. -/
def Rect.Upright (r : Rect) : Prop := ¬ r.right < r.left ∧ ¬ r.bottom < r.top

namespace Rect

variable {r : Rect} {offset : Vec} {p : Point}

theorem upright_of_isEmpty_eq_false (h : r.isEmpty = false) : r.Upright := by
  obtain ⟨hx, hy⟩ := isEmpty_eq_false_iff.mp h
  exact ⟨Binary.not_lt_of_lt hx, Binary.not_lt_of_lt hy⟩

/-- Edges that are numbers and in order stay as they are when they are put in order. -/
theorem Upright.normalize_eq_self (h : r.Upright) (hr : r.Numeric) : r.normalize = r :=
  normalize_of_le (Binary.le_of_not_lt hr.left hr.right h.1) (Binary.le_of_not_lt hr.top hr.bottom h.2)

/-- Putting the edges in order makes no difference to the points. -/
theorem Upright.covers_normalize (h : r.Upright) : r.normalize.covers p ↔ r.covers p := by
  constructor
  · intro hp
    rwa [h.normalize_eq_self (numeric_of_isEmpty_normalize hp.isEmpty_eq_false)] at hp
  · exact covers.normalize

end Rect

/-- A shift keeps the edges in order, however it rounds them. -/
theorem Rect.Upright.shift {r : Rect} {offset : Vec} (h : r.Upright) : (r.shift offset).Upright :=
  ⟨fun hlt => h.1 (Binary.lt_of_add_lt_add hlt), fun hlt => h.2 (Binary.lt_of_add_lt_add hlt)⟩

namespace Region

variable {r s : Region} {rect : Rect} {rects : List Rect} {offset : Vec} {p : Point}

/-- The edges of every rectangle are in order. -/
def Upright (r : Region) : Prop := ∀ rect ∈ r.rects, rect.Upright

theorem Solid.upright (h : r.Solid) : r.Upright :=
  fun rect hrect => Rect.upright_of_isEmpty_eq_false (h rect hrect)

theorem Upright.add (h : r.Upright) : (r.add rect).Upright := by
  rcases add_eq_or_solid r rect with hsame | hsolid
  · rwa [hsame]
  · exact hsolid.upright

theorem Upright.remove (h : r.Upright) : (r.remove rect).Upright := by
  rcases remove_eq_or_solid r rect with hsame | hsolid
  · rwa [hsame]
  · exact hsolid.upright

theorem Upright.moved (h : r.Upright) : (r.moved offset).Upright := by
  intro piece hpiece
  obtain ⟨rect, hrect, rfl⟩ := List.mem_map.mp hpiece
  exact (h rect hrect).shift

theorem Upright.exists_normalize (h : r.Upright) : (∃ rect ∈ r.rects, rect.normalize.covers p) ↔ r.covers p :=
  exists_congr fun rect => and_congr_right fun hrect => (h rect hrect).covers_normalize

/-- A region with its edges in order has the points that it covers. -/
theorem Upright.mem_points (h : r.Upright) : p ∈ r.points ↔ r.covers p := by
  rw [← h.exists_normalize]
  simp [points, Rect.points]

/-! ## Touching and containing -/

/-- A rectangle touches the region iff something is left of the region once it is cut to the rectangle, whatever the
edges of the region are. -/
theorem touches_iff_clip (hrect : rect.Numeric) : r.touches rect = true ↔ (r.clip rect).isEmpty = false := by
  have hleft : (r.clip rect).isEmpty = false ↔ ∃ piece ∈ r.rects, piece.overlaps rect.normalize = true := by
    simp only [Rect.overlaps_iff_meet hrect.normalize]
    simp [clip, isEmpty, dropEmpty]
  rw [hleft]
  simp only [touches, Bool.and_eq_true, Bool.not_eq_true', List.any_eq_true]
  refine ⟨And.right, fun htouch => ⟨?_, htouch⟩⟩
  obtain ⟨piece, _, hover⟩ := htouch
  exact Rect.isEmpty_of_overlaps hrect.normalize hover

/-- A region contains a rectangle iff it has all of its points, in however many rectangles. -/
theorem contains_iff : r.contains rect = true ↔ rect.points ⊆ r.points := by
  have hleft (p : Point) : ((ofRect rect).diff r).covers p ↔ p ∈ rect.points ∧ ¬ p ∈ r.points := by
    rw [diff, (foldl_remove_spec r.rects (solid_ofRect rect)).2 p, covers_ofRect]
    simp [points, Rect.points]
  unfold contains
  rw [isEmpty_iff (solid_ofRect rect).diff]
  simp only [hleft, not_and_not_right]
  exact Iff.rfl

end Region

/-! ## The hull -/

namespace Rect

variable {a b outer : Rect} {rects : List Rect}

/-- No edge of the inner rectangle lies further out than the outer one's. -/
structure Encloses (outer inner : Rect) : Prop where
  left : outer.left ≤ inner.left
  top : outer.top ≤ inner.top
  right : inner.right ≤ outer.right
  bottom : inner.bottom ≤ outer.bottom

theorem Numeric.encloses_self (h : a.Numeric) : a.Encloses a :=
  ⟨Binary.le_refl_of_ne_nan h.left, Binary.le_refl_of_ne_nan h.top, Binary.le_refl_of_ne_nan h.right,
    Binary.le_refl_of_ne_nan h.bottom⟩

theorem Numeric.hull (ha : a.Numeric) (hb : b.Numeric) : (a.hull b).Numeric :=
  ⟨Binary.min_ne_nan ha.left hb.left, Binary.min_ne_nan ha.top hb.top, Binary.max_ne_nan ha.right hb.right,
    Binary.max_ne_nan ha.bottom hb.bottom⟩

theorem encloses_hull_iff (ha : a.Numeric) (hb : b.Numeric) :
    outer.Encloses (a.hull b) ↔ outer.Encloses a ∧ outer.Encloses b := by
  constructor
  · intro ⟨hleft, htop, hright, hbottom⟩
    obtain ⟨hleft, hleft'⟩ := (Binary.le_min_iff ha.left hb.left).mp hleft
    obtain ⟨htop, htop'⟩ := (Binary.le_min_iff ha.top hb.top).mp htop
    obtain ⟨hright, hright'⟩ := (Binary.max_le_iff ha.right hb.right).mp hright
    obtain ⟨hbottom, hbottom'⟩ := (Binary.max_le_iff ha.bottom hb.bottom).mp hbottom
    exact ⟨⟨hleft, htop, hright, hbottom⟩, hleft', htop', hright', hbottom'⟩
  · intro ⟨h, h'⟩
    exact ⟨(Binary.le_min_iff ha.left hb.left).mpr ⟨h.left, h'.left⟩,
      (Binary.le_min_iff ha.top hb.top).mpr ⟨h.top, h'.top⟩,
      (Binary.max_le_iff ha.right hb.right).mpr ⟨h.right, h'.right⟩,
      (Binary.max_le_iff ha.bottom hb.bottom).mpr ⟨h.bottom, h'.bottom⟩⟩

/-- A rectangle encloses the hull of some rectangles iff it encloses each of them. -/
theorem foldl_hull_spec (first : Rect) (hfirst : first.Numeric) (hrects : ∀ r ∈ rects, r.Numeric) :
    (rects.foldl Rect.hull first).Numeric ∧
      ∀ outer : Rect, outer.Encloses (rects.foldl Rect.hull first) ↔
        outer.Encloses first ∧ ∀ r ∈ rects, outer.Encloses r := by
  induction rects generalizing first with
  | nil => exact ⟨hfirst, by simp⟩
  | cons next rest ih =>
    obtain ⟨hnext, hrest⟩ := List.forall_mem_cons.mp hrects
    obtain ⟨hnumeric, hencloses⟩ := ih (first.hull next) (hfirst.hull hnext) hrest
    refine ⟨hnumeric, fun outer => ?_⟩
    rw [List.foldl_cons, hencloses outer, encloses_hull_iff hfirst hnext, List.forall_mem_cons, and_assoc]

end Rect

namespace Region

variable {r : Region}

/-- A rectangle encloses the hull of a region iff it encloses all of its rectangles; the hull itself is one. -/
theorem encloses_hull_iff (h : r.Numeric) (hrects : r.isEmpty = false) :
    r.hull.Encloses r.hull ∧
      ∀ outer : Rect, outer.Encloses r.hull ↔ ∀ rect ∈ r.rects, outer.Encloses rect := by
  unfold hull
  unfold Numeric at h
  unfold isEmpty at hrects
  cases hlist : r.rects with
  | nil =>
    rw [hlist] at hrects
    cases hrects
  | cons first rest =>
    rw [hlist] at h
    obtain ⟨hfirst, hrest⟩ := List.forall_mem_cons.mp h
    obtain ⟨hnumeric, hencloses⟩ := Rect.foldl_hull_spec first hfirst hrest
    refine ⟨hnumeric.encloses_self, fun outer => ?_⟩
    rw [List.forall_mem_cons]
    exact hencloses outer

end Region

/-! ## The run -/

/-- What an operation preserves, whatever it was given. -/
theorem RegionOp.upright_apply {ι : Type} {bank : ι → Region} {r : Region} (hbank : ∀ i, (bank i).Upright)
    (h : r.Upright) (op : RegionOp ι) : (op.apply bank r).Upright := by
  refine op.apply_induction (Q := fun _ => True) Region.solid_empty.upright (fun _ _ _ h => h.add)
    (fun _ _ _ h => h.remove) (fun _ _ _ _ => Region.solid_clip.upright) (fun _ _ _ _ => Region.solid_inter.upright)
    hbank h (fun _ _ => trivial) ?_ ?_
  · intro offset _
    exact h.moved
  · intro other offset _
    exact (hbank other).moved

namespace RegionStep

variable {ι : Type} [DecidableEq ι]

theorem run_upright (program : List (RegionStep ι)) (i : ι) : (run program i).Upright :=
  run_induction program Region.solid_empty.upright
    (fun step _ _ hbank => RegionOp.upright_apply hbank (hbank step.target) step.op) i

/-- **Questions about regions are questions about sets.** In every register, whatever the program did, and for every
rectangle, its corners in order or not: it touches the region iff something is left of the region cut to it, and the
region contains it iff it has all of its points. As long as the edges of the region are numbers, the rectangle touches it
iff the two have a point in common, and the hull is the smallest rectangle that encloses all of the region's. The hull
of a region without rectangles is all zero. -/
theorem run_answers (program : List (RegionStep ι)) (i : ι) (rect : Rect) (hrect : rect.Numeric) :
    ((run program i).touches rect = true ↔ ((run program i).clip rect).isEmpty = false) ∧
      ((run program i).contains rect = true ↔ rect.points ⊆ (run program i).points) ∧
      ((run program i).isEmpty = true → (run program i).hull = Rect.zero) ∧
      ((run program i).Numeric →
        ((run program i).touches rect = true ↔ ((run program i).points ∩ rect.points).Nonempty) ∧
          (∀ inner ∈ (run program i).rects, (run program i).hull.Encloses inner) ∧
          ∀ outer : Rect, (run program i).isEmpty = false → (∀ inner ∈ (run program i).rects, outer.Encloses inner) →
            outer.Encloses (run program i).hull) := by
  have hupright := run_upright program i
  refine ⟨Region.touches_iff_clip hrect, Region.contains_iff, ?_, fun hnumbers => ⟨?_, ?_, ?_⟩⟩
  · intro hrects
    unfold Region.hull
    rw [List.isEmpty_iff.mp hrects]
  · rw [Region.touches_iff hnumbers]
    exact exists_congr fun p => and_congr_left fun _ => hupright.mem_points.symm
  · intro inner hinner
    have hrects : (run program i).isEmpty = false := by
      unfold Region.isEmpty
      rw [List.isEmpty_eq_false_iff]
      exact List.ne_nil_of_mem hinner
    obtain ⟨hself, hencloses⟩ := Region.encloses_hull_iff hnumbers hrects
    exact (hencloses _).mp hself inner hinner
  · intro outer hrects houter
    exact ((Region.encloses_hull_iff hnumbers hrects).2 outer).mpr houter

/-- An angle of two strips. -/
def angle : List (RegionStep Unit) :=
  [⟨(), .ofRects [⟨0, 0, 1, Binary.ofInt 4⟩, ⟨1, 0, Binary.ofInt 4, Binary.ofInt 2⟩]⟩]

/-- Neither strip has all of the rectangle, which is given by its corners the wrong way round. -/
theorem run_answers_angle :
    (⟨Binary.ofInt 3, Binary.ofInt 2, 0, 0⟩ : Rect).Numeric ∧ (run angle ()).Numeric ∧
      (⟨Binary.ofInt 3, Binary.ofInt 2, 0, 0⟩ : Rect).points ⊆ (run angle ()).points ∧
      ((run angle ()).points ∩ (⟨Binary.ofInt 3, Binary.ofInt 2, 0, 0⟩ : Rect).points).Nonempty ∧
      ∀ inner ∈ (run angle ()).rects, (run angle ()).hull.Encloses inner := by
  have hrect : (⟨Binary.ofInt 3, Binary.ofInt 2, 0, 0⟩ : Rect).Numeric := by decide +kernel
  have hsolid : (run angle ()).Solid := by decide +kernel
  obtain ⟨_, hcontains, _, hnumbers⟩ := run_answers angle () _ hrect
  obtain ⟨htouches, hhull, _⟩ := hnumbers hsolid.numeric
  exact ⟨hrect, hsolid.numeric, hcontains.mp (by decide +kernel), htouches.mp (by decide +kernel), hhull⟩

/-- A unit square, moved by an offset that is not a number. -/
def nowhere : List (RegionStep Unit) := [⟨(), .ofRect ⟨0, 0, 1, 1⟩⟩, ⟨(), .shift ⟨.nan, 0⟩⟩]

/-- A rectangle with numbers for edges touches a region that has no point, and the hull does not enclose what it is the
hull of. -/
theorem touches_nowhere :
    (⟨0, 0, 1, 1⟩ : Rect).Numeric ∧ (run nowhere ()).touches ⟨0, 0, 1, 1⟩ = true ∧
      ¬ ((run nowhere ()).points ∩ (⟨0, 0, 1, 1⟩ : Rect).points).Nonempty ∧
      ¬ ∀ inner ∈ (run nowhere ()).rects, (run nowhere ()).hull.Encloses inner := by
  refine ⟨by decide +kernel, by decide +kernel, fun ⟨p, hp, _⟩ => ?_, fun hhull => ?_⟩
  · obtain ⟨rect, hrect, hp⟩ := (run_upright nowhere ()).mem_points.mp hp
    have hnone : ∀ rect ∈ (run nowhere ()).rects, rect.isEmpty = true := by decide +kernel
    exact Rect.not_covers_of_isEmpty (hnone rect hrect) p hp
  · have hleft := (hhull ⟨.nan, 0, .nan, 1⟩ (by decide +kernel)).left
    exact (Binary.ne_nan_of_le hleft).2 rfl

end RegionStep

end Repaint
