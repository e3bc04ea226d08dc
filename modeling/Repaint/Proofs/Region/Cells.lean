import Repaint.Proofs.Counting
import Repaint.Proofs.Region.Rounded
import Mathlib.Data.Set.Card
import Mathlib.Data.Int.Interval
import Mathlib.Algebra.Order.Archimedean.Real.Basic

/-!
# The area counts cells

A region with whole edges consists of unit cells, and the area that is added up in doubles is their number as long as it
stays below `2^53`: `run_area` says so of every register after every program, however it is cut into rectangles and
however often its edges were rounded on the way.

* **one rectangle** — its cells are those between its edges, and its area goes with their number
  (`Rect.EdgesIn.exists_grid`);
* **all rectangles** — rectangles that are apart have no cell in common, so that adding their areas adds the numbers
  (`exists_grid_foldl`);
* **two regions** — cells are united and intersected like points (`Region.Parted.cells_union`,
  `Region.Parted.cells_inter`).

A program that is given whole numbers only leaves whole edges wherever the area stays below the bound (`run_gridded`). A
rectangle that rounding has left without a width adds nothing to the area, unless its height is infinite and the area
is not a number.
-/

namespace Repaint

/-! ## Cells -/

/-- The unit square to the right of and below a point with whole coordinates. -/
def cell (c : ℤ × ℤ) : Set Point := Set.Ico (c.1 : ℝ) (c.1 + 1) ×ˢ Set.Ico (c.2 : ℝ) (c.2 + 1)

/-- The top left corner of a cell. -/
def corner (c : ℤ × ℤ) : Point := (c.1, c.2)

/-- The cell that a point lies in. -/
noncomputable def cellOf (p : Point) : ℤ × ℤ := (⌊p.1⌋, ⌊p.2⌋)

variable {c : ℤ × ℤ} {p : Point}

theorem mem_cell_iff : p ∈ cell c ↔ cellOf p = c := by
  simp only [cell, cellOf, Set.mem_prod, Set.mem_Ico, Prod.ext_iff, Int.floor_eq_iff]

theorem corner_mem_cell : corner c ∈ cell c := by
  simp [corner, cell]

namespace Binary

variable {fmt : Format} {a : Binary fmt} {x : ℝ}

theorem atMost_whole_iff {n : Int} : (finite (n * pow2 fmt.scale) : Binary fmt).AtMost x ↔ (n : ℝ) ≤ x := by
  show (finite (n * pow2 fmt.scale) : Binary fmt).value ≤ x ↔ _
  rw [value_whole]

theorem exceeds_whole_iff {n : Int} : (finite (n * pow2 fmt.scale) : Binary fmt).Exceeds x ↔ x < (n : ℝ) := by
  show x < (finite (n * pow2 fmt.scale) : Binary fmt).value ↔ _
  rw [value_whole]

/-- A whole number does not tell a number from its whole part. -/
theorem Whole.atMost_floor (h : a.Whole) : a.AtMost ⌊x⌋ ↔ a.AtMost x := by
  obtain ⟨n, rfl⟩ := h
  rw [atMost_whole_iff, atMost_whole_iff, Int.cast_le, Int.le_floor]

theorem Whole.exceeds_floor (h : a.Whole) : a.Exceeds ⌊x⌋ ↔ a.Exceeds x := by
  obtain ⟨n, rfl⟩ := h
  rw [exceeds_whole_iff, exceeds_whole_iff, Int.cast_lt, Int.floor_lt]

/-- A stretch with whole ends holds as many whole numbers as its length says. -/
theorem Whole.exists_line {lo hi : Binary fmt} (hlo : lo.Whole) (hhi : hi.Whole) (horder : ¬ hi < lo) :
    ∃ line : Finset ℤ, (∀ n : ℤ, n ∈ line ↔ lo.AtMost n ∧ hi.Exceeds n) ∧ Counted line.card (hi - lo) := by
  obtain ⟨first, rfl⟩ := hlo
  obtain ⟨behind, rfl⟩ := hhi
  have hpos : (0 : Int) < pow2 fmt.scale := Int.natCast_pos.mpr (pow2_pos _)
  have hlength : ((behind - first).toNat : Int) = behind - first := by
    have hunits : ¬ behind * pow2 fmt.scale < first * pow2 fmt.scale := fun hlt => horder (decide_eq_true hlt)
    have := Int.le_of_mul_le_mul_right (not_lt.mp hunits) hpos
    omega
  refine ⟨Finset.Ico first behind, fun n => ?_, ?_⟩
  · rw [Finset.mem_Ico, atMost_whole_iff, exceeds_whole_iff, Int.cast_le, Int.cast_lt]
  · rw [Int.card_Ico, whole_sub_whole, ← hlength]
    exact Counted.ofInt _

/-- A count below `2^53` is a double. -/
theorem value_count {n : Nat} (h : n < pow2 53) : (ofInt n : Coord).value = n := by
  have hwholes : (n : Int).natAbs ≤ Format.double.wholes := Nat.le_of_lt h
  rw [value_ofInt (by decide) hwholes, Int.cast_natCast]

end Binary

namespace Rect

variable {r : Rect}

theorem EdgesIn.covers_corner (h : r.EdgesIn Binary.Whole) : r.covers (corner (cellOf p)) ↔ r.covers p := by
  unfold covers corner cellOf
  rw [h.left.atMost_floor, h.right.exceeds_floor, h.top.atMost_floor, h.bottom.exceeds_floor]

/-- A rectangle with whole edges covers as many cells as its area says. -/
theorem EdgesIn.exists_grid (h : r.EdgesIn Binary.Whole) (hupright : r.Upright) (harea : r.area ≠ .nan) :
    ∃ grid : Finset (ℤ × ℤ), (∀ c, c ∈ grid ↔ r.covers (corner c)) ∧ Binary.Counted grid.card r.area := by
  obtain ⟨columns, hcolumns, hwidth⟩ := h.left.exists_line h.right hupright.1
  obtain ⟨rows, hrows, hheight⟩ := h.top.exists_line h.bottom hupright.2
  refine ⟨columns ×ˢ rows, fun c => ?_, ?_⟩
  · rw [Finset.mem_product, hcolumns, hrows]
    exact Iff.rfl
  · rw [Finset.card_product]
    exact hwidth.mul (by decide) hheight harea

/-- A rectangle with area has one that is a number. -/
theorem area_ne_nan (h : r.isEmpty = false) : r.area ≠ .nan :=
  Binary.mul_ne_nan_of_pos (extent_pos h).1 (extent_pos h).2

end Rect

/-! ## Adding up -/

/-- A sum that is a number has numbers for parts. -/
theorem ne_nan_of_foldl_area {rects : List Rect} {sum : Coord}
    (h : rects.foldl (fun sum rect => sum + rect.area) sum ≠ .nan) :
    sum ≠ .nan ∧ ∀ rect ∈ rects, rect.area ≠ .nan := by
  induction rects generalizing sum with
  | nil => exact ⟨h, by simp⟩
  | cons rect rest ih =>
    obtain ⟨hsum, hrest⟩ := ih h
    have hsum : sum + rect.area ≠ .nan := hsum
    have hrect : rect.area ≠ .nan := by
      rw [Binary.add_comm] at hsum
      exact Binary.ne_nan_of_add_ne_nan hsum
    exact ⟨Binary.ne_nan_of_add_ne_nan hsum, List.forall_mem_cons.mpr ⟨hrect, hrest⟩⟩

/-- Rectangles that are apart have no cell in common, so that a sum of their areas goes on counting. -/
theorem exists_grid_foldl (rects : List Rect) (hwhole : ∀ r ∈ rects, r.EdgesIn Binary.Whole)
    (hupright : ∀ r ∈ rects, r.Upright) (hapart : rects.Pairwise Rect.Apart) (harea : ∀ r ∈ rects, r.area ≠ .nan)
    {count : Nat} {sum : Coord} (hsum : Binary.Counted count sum) :
    ∃ grid : Finset (ℤ × ℤ), (∀ c, c ∈ grid ↔ coversAny rects (corner c)) ∧
      Binary.Counted (count + grid.card) (rects.foldl (fun sum rect => sum + rect.area) sum) := by
  induction rects generalizing count sum with
  | nil => exact ⟨∅, by simp, hsum⟩
  | cons r rest ih =>
    obtain ⟨hr, hrest⟩ := List.forall_mem_cons.mp hwhole
    obtain ⟨hr', hrest'⟩ := List.forall_mem_cons.mp hupright
    obtain ⟨hfirst, hothers⟩ := pairwise_apart_cons.mp hapart
    obtain ⟨hnumber, hnumbers⟩ := List.forall_mem_cons.mp harea
    obtain ⟨grid, hgrid, hcounted⟩ := hr.exists_grid hr' hnumber
    obtain ⟨grids, hgrids, hcounts⟩ := ih hrest hrest' hothers hnumbers (hsum.add (by decide) hcounted)
    have hdisjoint : Disjoint grid grids := by
      rw [Finset.disjoint_left]
      intro c hc hc'
      exact hfirst (corner c) ((hgrid c).mp hc) ((hgrids c).mp hc')
    refine ⟨grid ∪ grids, fun c => ?_, ?_⟩
    · rw [Finset.mem_union, hgrid c, hgrids c, coversAny_cons]
    · rw [Finset.card_union_of_disjoint hdisjoint, ← Nat.add_assoc]
      exact hcounts

namespace Region

variable {r s : Region}

/-- The cells that lie in the region. -/
def cells (r : Region) : Set (ℤ × ℤ) := {c | cell c ⊆ r.points}

/-- A region with whole edges has a point if it has the corner of the point's cell. -/
theorem EdgesIn.covers_corner (h : r.EdgesIn Binary.Whole) : r.covers (corner (cellOf p)) ↔ r.covers p :=
  exists_congr fun rect => and_congr_right fun hrect => (h rect hrect).covers_corner

/-- A region with whole edges has a cell iff it has its corner. -/
theorem EdgesIn.mem_cells (h : r.EdgesIn Binary.Whole) (hupright : r.Upright) :
    c ∈ r.cells ↔ r.covers (corner c) := by
  constructor
  · intro hc
    exact hupright.mem_points.mp (hc corner_mem_cell)
  · intro hc p hp
    rw [← mem_cell_iff.mp hp, h.covers_corner] at hc
    exact hupright.mem_points.mpr hc

/-- The area of a region goes with the number of its cells. -/
theorem Parted.counted (h : r.Parted) (hwhole : r.EdgesIn Binary.Whole) (harea : ∀ rect ∈ r.rects, rect.area ≠ .nan) :
    r.cells.Finite ∧ Binary.Counted r.cells.ncard r.area := by
  obtain ⟨grid, hgrid, hcounted⟩ :=
    exists_grid_foldl r.rects hwhole h.upright h.apart harea (Binary.Counted.ofInt 0)
  have hcells : r.cells = grid := by
    ext c
    rw [hwhole.mem_cells h.upright, Finset.mem_coe, hgrid c]
    exact Iff.rfl
  rw [hcells, Set.ncard_coe_finset]
  refine ⟨grid.finite_toSet, ?_⟩
  rwa [Nat.zero_add, Nat.cast_zero, Binary.ofInt_zero (by decide)] at hcounted

/-- A region with whole edges and an area that doubles count exactly. -/
structure Gridded (r : Region) : Prop where
  whole : r.EdgesIn Binary.Whole
  small : r.area < Binary.ofInt (pow2 53)

instance (r : Region) : Decidable r.Gridded :=
  decidable_of_iff ((∀ rect ∈ r.rects, rect.EdgesIn Binary.Whole) ∧ r.area < Binary.ofInt (pow2 53))
    ⟨fun ⟨h1, h2⟩ => ⟨h1, h2⟩, fun ⟨h1, h2⟩ => ⟨h1, h2⟩⟩

/-- The area of a gridded region is the number of its cells. -/
theorem Gridded.area_eq (h : r.Gridded) (hparted : r.Parted) :
    r.cells.Finite ∧ r.cells.ncard < pow2 53 ∧ r.area = Binary.ofInt r.cells.ncard := by
  have harea := (ne_nan_of_foldl_area (Binary.ne_nan_of_lt_left h.small)).2
  obtain ⟨hfinite, hcounted⟩ := hparted.counted h.whole harea
  exact ⟨hfinite, hcounted.eq_ofInt_of_lt h.small⟩

/-- Regions with whole edges and the same points have the same cells. -/
theorem cells_eq_of_points_eq (h : r.points = s.points) : r.cells = s.cells := by
  unfold cells
  rw [h]

theorem Parted.cells_union (hr : r.Parted) (hs : s.Parted) (hwhole : r.EdgesIn Binary.Whole)
    (hwhole' : s.EdgesIn Binary.Whole) : (r.union s).cells = r.cells ∪ s.cells := by
  ext c
  rw [Set.mem_union, (hwhole.union hwhole').mem_cells hr.union.upright, hwhole.mem_cells hr.upright,
    hwhole'.mem_cells hs.upright, ← hs.upright.exists_normalize]
  exact covers_foldl_add s.rects hr.numeric

theorem Parted.cells_inter (hr : r.Parted) (hs : s.Parted) (hwhole : r.EdgesIn Binary.Whole)
    (hwhole' : s.EdgesIn Binary.Whole) : (r.inter s).cells = r.cells ∩ s.cells := by
  ext c
  rw [Set.mem_inter_iff, (hwhole.inter hwhole').mem_cells (hr.inter hs).upright, hwhole.mem_cells hr.upright,
    hwhole'.mem_cells hs.upright, covers_inter hr.numeric hs.numeric]

/-- The areas of a union and an intersection add up to those of the two regions. -/
theorem Gridded.area_union_add_area_inter (hr : r.Gridded) (hs : s.Gridded) (h : r.Parted) (h' : s.Parted)
    (hunion : (r.union s).area < Binary.ofInt (pow2 53)) :
    (r.union s).area.value + (r.inter s).area.value = r.area.value + s.area.value := by
  obtain ⟨hfinite, hcount, harea⟩ := hr.area_eq h
  obtain ⟨hfinite', hcount', harea'⟩ := hs.area_eq h'
  obtain ⟨_, hcounts, hareas⟩ := Gridded.area_eq ⟨hr.whole.union hs.whole, hunion⟩ h.union
  obtain ⟨_, hshared⟩ := (h.inter h').counted (hr.whole.inter hs.whole) fun rect hrect =>
    Rect.area_ne_nan (solid_inter rect hrect)
  have hfewer : (r.inter s).cells.ncard < pow2 53 := by
    rw [h.cells_inter h' hr.whole hs.whole]
    exact Nat.lt_of_le_of_lt (Set.ncard_inter_le_ncard_left _ _ hfinite) hcount
  have hcells : (r.union s).cells.ncard + (r.inter s).cells.ncard = r.cells.ncard + s.cells.ncard := by
    rw [h.cells_union h' hr.whole hs.whole, h.cells_inter h' hr.whole hs.whole]
    exact Set.ncard_union_add_ncard_inter _ _ hfinite hfinite'
  rw [hareas, hshared.eq_ofInt hfewer, harea, harea', Binary.value_count hcounts,
    Binary.value_count hfewer, Binary.value_count hcount, Binary.value_count hcount']
  exact_mod_cast hcells

end Region

/-! ## The run -/

namespace RegionStep

variable {ι : Type} [DecidableEq ι]

/-- The bound on the area is one on the number of cells, unless the area is not a number. -/
theorem run_area_lt_iff (program : List (RegionStep ι)) (hfinite : ∀ step ∈ program, step.op.MovesFinitely) (i : ι)
    (hwhole : (run program i).EdgesIn Binary.Whole) (hnumber : (run program i).area ≠ .nan) :
    (run program i).area < Binary.ofInt (pow2 53) ↔ (run program i).cells.ncard < pow2 53 :=
  ((run_parted program hfinite i).counted hwhole (ne_nan_of_foldl_area hnumber).2).2.lt_wholes_iff (by decide)

/-- **The area counts cells.** In a register with whole edges and an area below `2^53`, whatever the program did and
however often it rounded, the area is the number of cells. So it does not depend on how the points are cut into
rectangles, and the areas of a union and an intersection add up to those of the two registers. -/
theorem run_area (program : List (RegionStep ι)) (hfinite : ∀ step ∈ program, step.op.MovesFinitely) (i j : ι)
    (hi : (run program i).Gridded) (hj : (run program j).Gridded) :
    (run program i).cells.Finite ∧
      (run program i).cells.ncard < pow2 53 ∧
      (run program i).area = Binary.ofInt (run program i).cells.ncard ∧
      ((run program i).points = (run program j).points → (run program i).area = (run program j).area) ∧
      (((run program i).union (run program j)).area < Binary.ofInt (pow2 53) →
        ((run program i).union (run program j)).area.value + ((run program i).inter (run program j)).area.value =
          (run program i).area.value + (run program j).area.value) := by
  have hparted := run_parted program hfinite
  obtain ⟨hcells, hcount, harea⟩ := hi.area_eq (hparted i)
  refine ⟨hcells, hcount, harea, ?_, hi.area_union_add_area_inter hj (hparted i) (hparted j)⟩
  intro hpoints
  rw [harea, (hj.area_eq (hparted j)).2.2, Region.cells_eq_of_points_eq hpoints]

/-- Two squares that overlap, and a square with a hole over the middle of both. -/
def overlappingSquares : List (RegionStep Bool) :=
  [⟨false, .ofRects [⟨0, 0, Binary.ofInt 4, Binary.ofInt 4⟩,
      ⟨Binary.ofInt 2, Binary.ofInt 2, Binary.ofInt 6, Binary.ofInt 6⟩]⟩,
    ⟨true, .ofRect ⟨1, 1, Binary.ofInt 5, Binary.ofInt 5⟩⟩,
    ⟨true, .remove ⟨Binary.ofInt 2, Binary.ofInt 2, Binary.ofInt 4, Binary.ofInt 4⟩⟩]

theorem run_area_overlappingSquares :
    (∀ step ∈ overlappingSquares, step.op.MovesFinitely) ∧
      (run overlappingSquares false).Gridded ∧ (run overlappingSquares true).Gridded ∧
      (run overlappingSquares false).area = Binary.ofInt (run overlappingSquares false).cells.ncard ∧
      ((run overlappingSquares false).union (run overlappingSquares true)).area.value +
          ((run overlappingSquares false).inter (run overlappingSquares true)).area.value =
        (run overlappingSquares false).area.value + (run overlappingSquares true).area.value := by
  have hfinite : ∀ step ∈ overlappingSquares, step.op.MovesFinitely := by decide +kernel
  have hfirst : (run overlappingSquares false).Gridded := by decide +kernel
  have hsecond : (run overlappingSquares true).Gridded := by decide +kernel
  obtain ⟨_, _, harea, _, hsum⟩ := run_area overlappingSquares hfinite false true hfirst hsecond
  exact ⟨hfinite, hfirst, hsecond, harea, hsum (by decide +kernel)⟩

end RegionStep

end Repaint
