import Repaint.Proofs.Region.Cells

/-!
# Equal regions

The test for equality compares two areas and looks for points in one direction only. On regions with whole edges and
an area below `2^53` it says whether the points are the same: `run_sameSet` says so of all registers after every
program, up to what rounding leaves of a region.

* **measure** — of two regions with the same area the one that lies in the other is the other
  (`Region.Gridded.points_eq_of_subset`), so that looking in one direction is enough;
* **rounding** — a shift that is rounded may leave rectangles without area. Taking away something with area drops them
  (`Region.solid_diff_of_nonempty`), but a region that has nothing else is taken for a different one from every region
  that covers as little, itself included (`sameSet_roundedSquare`).
-/

namespace Repaint

namespace Region

variable {r s : Region} {p : Point}

/-- What has a point takes away every rectangle without area as well. -/
theorem solid_diff_of_nonempty (h : s.points.Nonempty) : (r.diff s).Solid := by
  obtain ⟨rect, hrect, harea⟩ := points_nonempty_iff.mp h
  obtain ⟨before, behind, hsplit⟩ := List.append_of_mem hrect
  unfold diff
  rw [hsplit, List.foldl_append, List.foldl_cons]
  apply (foldl_remove_spec behind _).1
  rw [remove_eq_punch harea]
  exact fun _ => isEmpty_of_mem_dropEmpty

/-- A region with whole edges has the points whose cells it has. -/
theorem Gridded.mem_points (h : r.Gridded) (hparted : r.Parted) : p ∈ r.points ↔ cellOf p ∈ r.cells := by
  rw [h.whole.mem_cells hparted.upright, h.whole.covers_corner, hparted.upright.mem_points]

/-- Of two regions with the same area the one that lies in the other is the other. -/
theorem Gridded.points_eq_of_subset (hr : r.Gridded) (hs : s.Gridded) (h : r.Parted) (h' : s.Parted)
    (harea : r.area = s.area) (hsubset : r.points ⊆ s.points) : r.points = s.points := by
  obtain ⟨_, hcount, hrarea⟩ := hr.area_eq h
  obtain ⟨hfinite, hcount', hsarea⟩ := hs.area_eq h'
  have hsame : r.cells.ncard = s.cells.ncard := by
    have hvalue : (r.cells.ncard : ℝ) = s.cells.ncard := by
      rw [← Binary.value_count hcount, ← Binary.value_count hcount', ← hrarea, ← hsarea, harea]
    exact_mod_cast hvalue
  have hcells : r.cells = s.cells := by
    refine Set.eq_of_subset_of_ncard_le ?_ (Nat.le_of_eq hsame.symm) hfinite
    intro c hc
    exact Set.Subset.trans hc hsubset
  ext p
  rw [hr.mem_points h, hs.mem_points h', hcells]

/-- Nothing is left of a region without another one that covers it, if the region covers something or has no
rectangles. -/
theorem isEmpty_diff (hr : r.Parted) (hpoints : r.points ⊆ s.points)
    (hshown : r.isEmpty = true ∨ r.points.Nonempty) : (r.diff s).isEmpty = true := by
  have hsolid : (r.diff s).Solid := by
    rcases hshown with hempty | hsome
    · apply Solid.diff
      intro rect hrect
      rw [List.isEmpty_iff.mp hempty] at hrect
      cases hrect
    · exact solid_diff_of_nonempty (hsome.mono hpoints)
  rw [isEmpty_iff hsolid]
  intro p hp
  obtain ⟨hp, hout⟩ := (covers_foldl_remove s.rects hr.numeric).mp hp
  obtain ⟨rect, hrect, hp⟩ := Set.mem_iUnion₂.mp (hpoints (hr.upright.mem_points.mpr hp))
  exact hout ⟨rect, hrect, hp⟩

/-- Where nothing is left of a region without another one, the other one covers it. -/
theorem points_subset_of_isEmpty_diff (hr : r.Parted) (h : (r.diff s).isEmpty = true) : r.points ⊆ s.points := by
  intro p hp
  by_contra hout
  have hleft : (r.diff s).covers p := by
    apply (covers_foldl_remove s.rects hr.numeric).mpr
    refine ⟨hr.upright.mem_points.mp hp, fun ⟨rect, hrect, hp⟩ => ?_⟩
    exact hout (Set.mem_iUnion₂.mpr ⟨rect, hrect, hp⟩)
  unfold covers at hleft
  rw [List.isEmpty_iff.mp h] at hleft
  exact coversAny_nil hleft

/-- Gridded regions that test as equal have the same points. -/
theorem Gridded.points_eq_of_sameSet (hr : r.Gridded) (hs : s.Gridded) (h : r.Parted) (h' : s.Parted)
    (hsame : r.sameSet s = true) : r.points = s.points := by
  obtain ⟨harea, hdiff⟩ := Bool.and_eq_true_iff.mp hsame
  exact hr.points_eq_of_subset hs h h' (Binary.eq_of_agrees harea) (points_subset_of_isEmpty_diff h hdiff)

/-- Gridded regions with the same points test as equal, if the first one has a point or no rectangles. -/
theorem Gridded.sameSet_of_points_eq (hr : r.Gridded) (hs : s.Gridded) (h : r.Parted) (h' : s.Parted)
    (hshown : r.isEmpty = true ∨ r.points.Nonempty) (hpoints : r.points = s.points) : r.sameSet s = true := by
  refine Bool.and_eq_true_iff.mpr ⟨?_, isEmpty_diff h hpoints.subset hshown⟩
  have harea : r.area = s.area := by
    rw [(hr.area_eq h).2.2, (hs.area_eq h').2.2, cells_eq_of_points_eq hpoints]
  rw [← harea]
  exact Binary.agrees_self (Binary.ne_nan_of_lt_left hr.small)

end Region

/-! ## The run -/

namespace RegionStep

variable {ι : Type} [DecidableEq ι]

/-- **Equal regions are equal sets.** Two registers with whole edges and areas below `2^53` that test as equal have the
same points, whatever the program did and however they are cut into rectangles. If they have the same points they test
as equal, as long as the first one has a point or no rectangles. So the test is an equivalence between the registers
that have a point or no rectangles. -/
theorem run_sameSet (program : List (RegionStep ι)) (hfinite : ∀ step ∈ program, step.op.MovesFinitely) :
    (∀ i j : ι, (run program i).Gridded → (run program j).Gridded → (run program i).sameSet (run program j) = true →
        (run program i).points = (run program j).points) ∧
      (∀ i j : ι, (run program i).Gridded → (run program j).Gridded →
        (run program i).isEmpty = true ∨ (run program i).points.Nonempty →
        (run program i).points = (run program j).points → (run program i).sameSet (run program j) = true) ∧
      Equivalence fun i j : {i : ι // (run program i).Gridded ∧
          ((run program i).isEmpty = true ∨ (run program i).points.Nonempty)} =>
        (run program i).sameSet (run program j) = true := by
  have hparted := run_parted program hfinite
  have hsound {i j : ι} (hi : (run program i).Gridded) (hj : (run program j).Gridded) :=
    hi.points_eq_of_sameSet hj (hparted i) (hparted j)
  have hcomplete {i j : ι} (hi : (run program i).Gridded) (hj : (run program j).Gridded) :=
    hi.sameSet_of_points_eq hj (hparted i) (hparted j)
  refine ⟨fun i j => hsound, fun i j => hcomplete, ?_, ?_, ?_⟩
  · intro ⟨i, hi, hshown⟩
    exact hcomplete hi hi hshown rfl
  · intro ⟨i, hi, _⟩ ⟨j, hj, hshown⟩ hij
    exact hcomplete hj hi hshown (hsound hi hj hij).symm
  · intro ⟨i, hi, hshown⟩ ⟨j, hj, _⟩ ⟨k, hk, _⟩ hij hjk
    exact hcomplete hi hk hshown ((hsound hi hj hij).trans (hsound hj hk hjk))

/-- An angle of two strips, cut below the upper one in the one register and beside the left one in the other. -/
def angleCutTwice : List (RegionStep Bool) :=
  [⟨false, .ofRects [⟨0, 0, Binary.ofInt 4, Binary.ofInt 2⟩, ⟨0, Binary.ofInt 2, 1, Binary.ofInt 4⟩]⟩,
    ⟨true, .ofRects [⟨0, 0, 1, Binary.ofInt 4⟩, ⟨1, 0, Binary.ofInt 4, Binary.ofInt 2⟩]⟩]

theorem run_sameSet_angleCutTwice :
    (∀ step ∈ angleCutTwice, step.op.MovesFinitely) ∧
      (run angleCutTwice false).Gridded ∧ (run angleCutTwice true).Gridded ∧
      (run angleCutTwice false).rects ≠ (run angleCutTwice true).rects ∧
      (run angleCutTwice false).points = (run angleCutTwice true).points ∧
      (run angleCutTwice true).sameSet (run angleCutTwice false) = true := by
  have hfinite : ∀ step ∈ angleCutTwice, step.op.MovesFinitely := by decide +kernel
  have hfirst : (run angleCutTwice false).Gridded := by decide +kernel
  have hsecond : (run angleCutTwice true).Gridded := by decide +kernel
  have hsome : (run angleCutTwice true).points.Nonempty := Region.points_nonempty_iff.mpr (by decide +kernel)
  obtain ⟨hsound, hcomplete, _⟩ := run_sameSet angleCutTwice hfinite
  have hpoints := hsound false true hfirst hsecond (by decide +kernel)
  exact ⟨hfinite, hfirst, hsecond, by decide +kernel, hpoints,
    hcomplete true false hsecond hfirst (Or.inr hsome) hpoints.symm⟩

/-- A unit square moved so far that both of its sides come to the same column, and another register that never held
anything. -/
def roundedSquare : List (RegionStep Bool) :=
  [⟨false, .ofRect ⟨0, 0, 1, 1⟩⟩, ⟨false, .shift ⟨Binary.ofInt (pow2 53), 0⟩⟩]

/-- Both registers have whole edges, an area below `2^53` and no points, and the one does not test as equal to the other,
nor to itself. -/
theorem sameSet_roundedSquare :
    (∀ step ∈ roundedSquare, step.op.MovesFinitely) ∧
      (run roundedSquare false).Gridded ∧ (run roundedSquare true).Gridded ∧
      (run roundedSquare false).points = (run roundedSquare true).points ∧
      (run roundedSquare false).sameSet (run roundedSquare true) = false ∧
      (run roundedSquare false).sameSet (run roundedSquare false) = false ∧
      (run roundedSquare true).sameSet (run roundedSquare false) = true := by
  refine ⟨by decide +kernel, by decide +kernel, by decide +kernel, ?_, by decide +kernel, by decide +kernel,
    by decide +kernel⟩
  rw [Region.points_eq_empty_iff.mpr (by decide +kernel), Region.points_eq_empty_iff.mpr (by decide +kernel)]

end RegionStep

end Repaint
