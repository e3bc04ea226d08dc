import Repaint.Proofs.Region.Query
import Repaint.Proofs.Region.Tiling

/-!
# Rounded shifts

A shift that is rounded may leave rectangles without area, but none that share a point, and as long as the offset is
finite none with an edge that is not a number: `run_parted` says so of every register after every program with finite
offsets. What a tiling has beyond that, area in every rectangle, is what rounding takes.

* **order** — two rectangles that overlap after a shift overlapped before, since a rounded sum makes no order of its
  own (`Rect.Apart.shift`);
* **cleaning** — an operation that takes a rectangle in or out drops what has lost its area on the way, and leaves the
  region as it is if its own rectangle has none.
-/

namespace Repaint

/-- Both parts of the offset are finite. -/
def Vec.Finite (v : Vec) : Prop := v.x.isFinite = true ∧ v.y.isFinite = true

instance (v : Vec) : Decidable v.Finite := inferInstanceAs (Decidable (_ ∧ _))

theorem Binary.add_ne_nan_of_isFinite {fmt : Format} {a b : Binary fmt} (ha : a ≠ nan) (hb : b.isFinite = true) :
    a + b ≠ nan := by
  cases b with
  | finite units =>
    rw [Binary.add_comm]
    exact finite_add_ne_nan units ha
  | _ => cases hb

namespace Rect

variable {a b : Rect} {offset : Vec}

theorem Numeric.shift (h : a.Numeric) (hoffset : offset.Finite) : (a.shift offset).Numeric :=
  ⟨Binary.add_ne_nan_of_isFinite h.left hoffset.1, Binary.add_ne_nan_of_isFinite h.top hoffset.2,
    Binary.add_ne_nan_of_isFinite h.right hoffset.1, Binary.add_ne_nan_of_isFinite h.bottom hoffset.2⟩

/-- A shift keeps rectangles apart, however it rounds: what would overlap afterwards lies between edges that were in
the same order before. -/
theorem Apart.shift (h : a.Apart b) : (a.shift offset).Apart (b.shift offset) := by
  intro p ⟨hax, hay⟩ ⟨hbx, hby⟩
  have horder {lo hi d : Coord} {x : ℝ} (hlo : (lo + d).AtMost x) (hhi : (hi + d).Exceeds x) : lo < hi :=
    Binary.lt_of_add_lt_add (Binary.lt_of_atMost_of_exceeds hlo hhi)
  have hcolumns : max a.left b.left < min a.right b.right :=
    Binary.max_lt_min (horder hax.1 hax.2) (horder hbx.1 hbx.2) (horder hax.1 hbx.2) (horder hbx.1 hax.2)
  have hrows : max a.top b.top < min a.bottom b.bottom :=
    Binary.max_lt_min (horder hay.1 hay.2) (horder hby.1 hby.2) (horder hay.1 hby.2) (horder hby.1 hay.2)
  have hover : a.overlaps b = true := by simp [overlaps, hcolumns, hrows]
  have ha := numeric_of_isEmpty_eq_false (isEmpty_eq_false_iff.mpr ⟨horder hax.1 hax.2, horder hay.1 hay.2⟩)
  have hb := numeric_of_isEmpty_eq_false (isEmpty_eq_false_iff.mpr ⟨horder hbx.1 hbx.2, horder hby.1 hby.2⟩)
  obtain ⟨q, hqa, hqb⟩ := (overlaps_iff ha hb).mp hover
  exact h q hqa hqb

end Rect

/-- A region whose edges are numbers and in order, and whose rectangles are apart, with area or without. -/
structure Region.Parted (r : Region) : Prop where
  numeric : r.Numeric
  upright : r.Upright
  apart : r.rects.Pairwise Rect.Apart

namespace Region

variable {r s : Region} {rect : Rect} {offset : Vec}

theorem Tiling.parted (h : r.Tiling) : r.Parted := ⟨h.solid.numeric, h.solid.upright, h.apart⟩

namespace Parted

theorem add (h : r.Parted) : (r.add rect).Parted := ⟨h.numeric.add, h.upright.add, apart_add h.numeric h.apart⟩

theorem remove (h : r.Parted) : (r.remove rect).Parted :=
  ⟨h.numeric.remove, h.upright.remove, apart_remove h.numeric h.apart⟩

theorem clip (h : r.Parted) : (r.clip rect).Parted :=
  ⟨solid_clip.numeric, solid_clip.upright, apart_clip h.numeric h.apart⟩

theorem union (h : r.Parted) : (r.union s).Parted :=
  List.foldlRecOn s.rects Region.add h fun _ h _ _ => h.add

theorem inter (h : r.Parted) (hs : s.Parted) : (r.inter s).Parted :=
  ⟨solid_inter.numeric, solid_inter.upright, apart_inter h.numeric hs.numeric h.apart hs.apart⟩

theorem moved (h : r.Parted) (hoffset : offset.Finite) : (r.moved offset).Parted := by
  refine ⟨fun piece hpiece => ?_, h.upright.moved, List.pairwise_map.mpr (h.apart.imp Rect.Apart.shift)⟩
  obtain ⟨rect, hrect, rfl⟩ := List.mem_map.mp hpiece
  exact (h.numeric rect hrect).shift hoffset

end Parted

end Region

/-! ## The run -/

namespace RegionOp

variable {ι : Type}

/-- What the operation leaves where it was moved to is moved by a finite offset. -/
def MovesFinitely : RegionOp ι → Prop
  | shift offset | interAt _ offset => offset.Finite
  | new | ofRect _ | ofRects _ | clear | copy _ | add _ | union _ | unionAt _ _ | remove _ | diff _
  | diffAt _ _ | clip _ | inter _ => True

instance : (op : RegionOp ι) → Decidable op.MovesFinitely
  | shift offset | interAt _ offset => inferInstanceAs (Decidable offset.Finite)
  | new | ofRect _ | ofRects _ | clear | copy _ | add _ | union _ | unionAt _ _ | remove _ | diff _
  | diffAt _ _ | clip _ | inter _ => .isTrue trivial

/-- What an operation preserves. -/
theorem parted_apply {bank : ι → Region} {r : Region} (hbank : ∀ i, (bank i).Parted) (h : r.Parted)
    (op : RegionOp ι) (hfinite : op.MovesFinitely) : (op.apply bank r).Parted := by
  refine op.apply_induction (Q := fun _ => True) Region.Tiling.empty.parted (fun _ _ _ h => h.add)
    (fun _ _ _ h => h.remove) (fun _ _ _ h => h.clip) (fun _ _ h h' => h.inter h') hbank h (fun _ _ => trivial) ?_ ?_
  · intro offset hop
    subst hop
    exact h.moved hfinite
  · intro other offset hop
    subst hop
    exact (hbank other).moved hfinite

end RegionOp

/-- Programs with finite offsets leave regions whose rectangles are apart. -/
theorem RegionStep.run_parted {ι : Type} [DecidableEq ι] (program : List (RegionStep ι))
    (hfinite : ∀ step ∈ program, step.op.MovesFinitely) (i : ι) : (run program i).Parted :=
  run_induction program Region.Tiling.empty.parted
    (fun step hstep _ hbank => RegionOp.parted_apply hbank (hbank step.target) step.op (hfinite step hstep)) i

end Repaint
