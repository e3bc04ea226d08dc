import Repaint.Proofs.Region.Cover
import Mathlib.Data.Set.Lattice
import Mathlib.Algebra.Group.Pointwise.Set.Basic

/-!
# Programs over regions compute with sets of points

A program is a list of steps over any number of registers, each of which holds a region. The same program can
be run over registers that hold sets of points, every step being the union, difference, intersection or shift
that it is named for.

* **one step** — an operation on regions does to the points what its set operation does
  (`RegionOp.points_apply`);
* **the run** — `run_points`: whatever the program, every register holds the set that the program computes, and
  has no rectangle exactly when that set is empty.

Coordinates that are not numbers, and sums that get rounded, have no counterpart among sets of points. A run in
which neither occurs is *exact* (`RegionStep.Exact`).
-/

namespace Repaint

/-- The points of a rectangle, its edges put in order. -/
def Rect.points (r : Rect) : Set Point := {p | r.normalize.covers p}

theorem Rect.mem_points_ofOrigin {origin : Vec} {size : Size} {p : Point} :
    p ∈ (ofOrigin origin size).points ↔ (ofOrigin origin size).covers p := by
  rw [points, normalize_ofOrigin]
  exact Iff.rfl

/-- The points of a region: those of its rectangles. -/
def Region.points (r : Region) : Set Point := ⋃ rect ∈ r.rects, rect.points

theorem Region.Solid.mem_points {r : Region} (h : r.Solid) {p : Point} : p ∈ r.points ↔ r.covers p := by
  rw [← h.exists_normalize]
  simp [points, Rect.points]

theorem Region.points_empty : Region.empty.points = ∅ := by simp [points, empty]

/-- A region has a point iff one of its rectangles has area, its edges put in order. -/
theorem Region.points_nonempty_iff {r : Region} :
    r.points.Nonempty ↔ ∃ rect ∈ r.rects, rect.normalize.isEmpty = false := by
  constructor
  · intro ⟨p, hp⟩
    obtain ⟨rect, hrect, hp⟩ := Set.mem_iUnion₂.mp hp
    exact ⟨rect, hrect, Rect.isEmpty_eq_false_iff_exists.mpr ⟨p, hp⟩⟩
  · intro ⟨rect, hrect, harea⟩
    obtain ⟨p, hp⟩ := Rect.isEmpty_eq_false_iff_exists.mp harea
    exact ⟨p, Set.mem_iUnion₂.mpr ⟨rect, hrect, hp⟩⟩

theorem Region.points_eq_empty_iff {r : Region} : r.points = ∅ ↔ ∀ rect ∈ r.rects, rect.normalize.isEmpty = true := by
  rw [← Set.not_nonempty_iff_eq_empty, points_nonempty_iff]
  simp only [not_exists, not_and, Bool.not_eq_false]

/-- A union has the points of both regions, even if the second one has rectangles without area. -/
theorem Region.points_union {r s : Region} (hr : r.Solid) : (r.union s).points = r.points ∪ s.points := by
  ext p
  rw [hr.union.mem_points, Region.union, (foldl_add_spec s.rects hr).2 p, Set.mem_union, hr.mem_points]
  simp [points, Rect.points]

/-- An operation on a register, which may read other registers. -/
inductive RegionOp (ι : Type) where
  | new
  | ofRect (rect : Rect)
  | ofRects (rects : List Rect)
  | clear
  | copy (other : ι)
  | shift (offset : Vec)
  | add (rect : Rect)
  | union (other : ι)
  | unionAt (other : ι) (offset : Vec)
  | remove (rect : Rect)
  | diff (other : ι)
  | diffAt (other : ι) (offset : Vec)
  | clip (rect : Rect)
  | inter (other : ι)
  | interAt (other : ι) (offset : Vec)

namespace RegionOp

variable {ι : Type}

/-- What the operation leaves in a register that held `current`. -/
def apply (bank : ι → Region) (current : Region) : RegionOp ι → Region
  | new => Region.empty
  | ofRect rect => Region.ofRect rect
  | ofRects rects => Region.ofRects rects
  | clear => Region.empty
  | copy other => bank other
  | shift offset => current.shift offset
  | add rect => current.add rect
  | union other => current.union (bank other)
  | unionAt other offset => current.unionAt (bank other) offset
  | remove rect => current.remove rect
  | diff other => current.diff (bank other)
  | diffAt other offset => current.diffAt (bank other) offset
  | clip rect => current.clip rect
  | inter other => current.inter (bank other)
  | interAt other offset => current.interAt (bank other) offset

/-- The rectangles that the operation adds or removes, or cuts the register to. -/
def handled (bank : ι → Region) : RegionOp ι → List Rect
  | ofRect rect | add rect | remove rect | clip rect => [rect]
  | ofRects rects => rects
  | union other | diff other => (bank other).rects
  | unionAt other offset | diffAt other offset => ((bank other).moved offset).rects
  | new | clear | copy _ | shift _ | inter _ | interAt _ _ => []

/-- What adding, removing, cutting to and intersecting preserve, and what the operation moves keeps, every operation
preserves. -/
theorem apply_induction {P : Region → Prop} {Q : Rect → Prop} {bank : ι → Region} {r : Region}
    (hempty : P Region.empty) (hadd : ∀ s rect, Q rect → P s → P (s.add rect))
    (hremove : ∀ s rect, Q rect → P s → P (s.remove rect)) (hclip : ∀ s rect, Q rect → P s → P (s.clip rect))
    (hinter : ∀ s t, P s → P t → P (s.inter t)) (hbank : ∀ i, P (bank i)) (h : P r) (op : RegionOp ι)
    (hhandled : ∀ rect ∈ op.handled bank, Q rect) (hshift : ∀ offset, op = shift offset → P (r.moved offset))
    (hinterAt : ∀ other offset, op = interAt other offset → P ((bank other).moved offset)) :
    P (op.apply bank r) := by
  have hunion {s : Region} {rects : List Rect} (hs : P s) (hrects : ∀ rect ∈ rects, Q rect) :
      P (rects.foldl Region.add s) :=
    List.foldlRecOn rects Region.add hs fun s hs rect hrect => hadd s rect (hrects rect hrect) hs
  have hdiff {s : Region} {rects : List Rect} (hs : P s) (hrects : ∀ rect ∈ rects, Q rect) :
      P (rects.foldl Region.remove s) :=
    List.foldlRecOn rects Region.remove hs fun s hs rect hrect => hremove s rect (hrects rect hrect) hs
  cases op with
  | new => exact hempty
  | clear => exact hempty
  | copy other => exact hbank other
  | ofRect rect => exact hunion hempty hhandled
  | ofRects rects => exact hunion hempty hhandled
  | add rect => exact hunion h hhandled
  | remove rect => exact hdiff h hhandled
  | clip rect => exact hclip r rect (hhandled rect List.mem_cons_self) h
  | shift offset =>
    show P (r.shift offset)
    unfold Region.shift
    split
    · exact h
    · exact hshift offset rfl
  | union other => exact hunion h hhandled
  | diff other => exact hdiff h hhandled
  | inter other => exact hinter r _ h (hbank other)
  | unionAt other offset =>
    show P (r.unionAt (bank other) offset)
    rw [Region.unionAt_eq_union_moved]
    exact hunion h hhandled
  | diffAt other offset =>
    show P (r.diffAt (bank other) offset)
    rw [Region.diffAt_eq_diff_moved]
    exact hdiff h hhandled
  | interAt other offset =>
    show P (r.interAt (bank other) offset)
    rw [Region.interAt_eq_inter_moved]
    exact hinter r _ h (hinterAt other offset rfl)

/-- The same operation on sets of points. -/
def applySet (bank : ι → Set Point) (current : Set Point) : RegionOp ι → Set Point
  | new => ∅
  | ofRect rect => rect.points
  | ofRects rects => ⋃ rect ∈ rects, rect.points
  | clear => ∅
  | copy other => bank other
  | shift offset => (· + offset.value) '' current
  | add rect => current ∪ rect.points
  | union other => current ∪ bank other
  | unionAt other offset => current ∪ (· + offset.value) '' bank other
  | remove rect => current \ rect.points
  | diff other => current \ bank other
  | diffAt other offset => current \ ((· + offset.value) '' bank other)
  | clip rect => current ∩ rect.points
  | inter other => current ∩ bank other
  | interAt other offset => current ∩ (· + offset.value) '' bank other

/-- The operation's rectangles have numbers for edges, and what it moves it moves without rounding. -/
def Exact (bank : ι → Region) (current : Region) : RegionOp ι → Prop
  | ofRect rect | add rect | remove rect | clip rect => rect.Numeric
  | ofRects rects => ∀ rect ∈ rects, rect.Numeric
  | shift offset => current.ShiftsExactly offset
  | unionAt other offset | diffAt other offset | interAt other offset =>
    (bank other).ShiftsExactly offset
  | new | clear | copy _ | union _ | diff _ | inter _ => True

instance (bank : ι → Region) (current : Region) : (op : RegionOp ι) → Decidable (op.Exact bank current)
  | ofRect rect | add rect | remove rect | clip rect => inferInstanceAs (Decidable rect.Numeric)
  | ofRects rects => inferInstanceAs (Decidable (∀ rect ∈ rects, rect.Numeric))
  | shift offset => inferInstanceAs (Decidable (∀ rect ∈ current.rects, rect.ShiftsExactly offset))
  | unionAt other offset | diffAt other offset | interAt other offset =>
    inferInstanceAs (Decidable (∀ rect ∈ (bank other).rects, rect.ShiftsExactly offset))
  | new | clear | copy _ | union _ | diff _ | inter _ => .isTrue trivial

/-- A region of rectangles with area, and the set of the points that they cover. -/
structure Denotes (r : Region) (s : Set Point) : Prop where
  solid : r.Solid
  covers : ∀ p, r.covers p ↔ p ∈ s

theorem Denotes.union {r r' : Region} {s s' : Set Point} (h : Denotes r s) (h' : Denotes r' s') :
    Denotes (r.union r') (s ∪ s') :=
  ⟨h.solid.union, fun p => by
    rw [Region.covers_union h.solid h'.solid, h.covers, h'.covers, Set.mem_union]⟩

theorem Denotes.diff {r r' : Region} {s s' : Set Point} (h : Denotes r s) (h' : Denotes r' s') :
    Denotes (r.diff r') (s \ s') :=
  ⟨h.solid.diff, fun p => by
    rw [Region.covers_diff h.solid h'.solid, h.covers, h'.covers, Set.mem_sdiff]⟩

theorem Denotes.inter {r r' : Region} {s s' : Set Point} (h : Denotes r s) (h' : Denotes r' s') :
    Denotes (r.inter r') (s ∩ s') :=
  ⟨Region.solid_inter, fun p => by
    rw [Region.covers_inter h.solid.numeric h'.solid.numeric, h.covers, h'.covers, Set.mem_inter_iff]⟩

theorem denotes_empty : Denotes Region.empty ∅ :=
  ⟨Region.solid_empty, fun _ => ⟨fun h => absurd h Region.not_covers_empty, False.elim⟩⟩

theorem mem_shifted {s : Set Point} {offset : Vec} {p : Point} :
    p ∈ (· + offset.value) '' s ↔ p - offset.value ∈ s := by
  rw [Set.image_add_right, Set.mem_preimage, sub_eq_add_neg]

/-- A region moved without rounding denotes the moved set. -/
theorem Denotes.moved {r : Region} {s : Set Point} {offset : Vec} (h : Denotes r s)
    (hexact : r.ShiftsExactly offset) : Denotes (r.moved offset) ((· + offset.value) '' s) :=
  ⟨hexact.solid_moved h.solid, fun p => by rw [hexact.covers_moved, h.covers, mem_shifted]⟩

/-- **One step.** An exact operation on regions does to the points what its set operation does. -/
theorem denotes_apply {bank : ι → Region} {sets : ι → Set Point} {r : Region} {s : Set Point}
    (hbank : ∀ i, Denotes (bank i) (sets i)) (h : Denotes r s) (op : RegionOp ι)
    (hexact : op.Exact bank r) : Denotes (op.apply bank r) (op.applySet sets s) := by
  have hr := h.solid
  cases op with
  | new => exact denotes_empty
  | clear => exact denotes_empty
  | copy other => exact hbank other
  | ofRect rect =>
    refine ⟨Region.solid_ofRect rect, fun p => ?_⟩
    exact Region.covers_ofRect rect
  | ofRects rects =>
    obtain ⟨hsolid, hcov⟩ := Region.foldl_add_spec rects Region.solid_empty
    refine ⟨hsolid, fun p => ?_⟩
    show (rects.foldl Region.add Region.empty).covers p ↔ p ∈ ⋃ rect ∈ rects, rect.points
    rw [hcov p, or_iff_right Region.not_covers_empty]
    simp [Rect.points]
  | shift offset =>
    refine ⟨hexact.solid_shift hr, fun p => ?_⟩
    show (r.shift offset).covers p ↔ p ∈ (· + offset.value) '' s
    rw [hexact.covers_shift, h.covers, mem_shifted]
  | add rect =>
    refine ⟨hr.add, fun p => ?_⟩
    show (r.add rect).covers p ↔ p ∈ s ∪ rect.points
    rw [Region.covers_add hr.numeric, h.covers]
    exact Iff.rfl
  | remove rect =>
    refine ⟨hr.remove, fun p => ?_⟩
    show (r.remove rect).covers p ↔ p ∈ s \ rect.points
    rw [Region.covers_remove hr.numeric, h.covers]
    exact Iff.rfl
  | clip rect =>
    refine ⟨Region.solid_clip, fun p => ?_⟩
    show (r.clip rect).covers p ↔ p ∈ s ∩ rect.points
    rw [Region.covers_clip hr.numeric hexact.normalize, h.covers]
    exact Iff.rfl
  | union other => exact h.union (hbank other)
  | diff other => exact h.diff (hbank other)
  | inter other => exact h.inter (hbank other)
  | unionAt other offset =>
    show Denotes (r.unionAt (bank other) offset) _
    rw [Region.unionAt_eq_union_moved]
    exact h.union ((hbank other).moved hexact)
  | diffAt other offset =>
    show Denotes (r.diffAt (bank other) offset) _
    rw [Region.diffAt_eq_diff_moved]
    exact h.diff ((hbank other).moved hexact)
  | interAt other offset =>
    show Denotes (r.interAt (bank other) offset) _
    rw [Region.interAt_eq_inter_moved]
    exact h.inter ((hbank other).moved hexact)

end RegionOp

/-! ## The run -/

/-- A step of a program: an operation on one register. -/
structure RegionStep (ι : Type) where
  target : ι
  op : RegionOp ι

namespace RegionStep

variable {ι : Type} [DecidableEq ι]

/-- The registers after the step. -/
def exec (bank : ι → Region) (step : RegionStep ι) : ι → Region :=
  Function.update bank step.target (step.op.apply bank (bank step.target))

/-- The registers of sets after the step. -/
def execSet (bank : ι → Set Point) (step : RegionStep ι) : ι → Set Point :=
  Function.update bank step.target (step.op.applySet bank (bank step.target))

/-- Every step of the program is exact in the registers that it meets. -/
def Exact (bank : ι → Region) : List (RegionStep ι) → Prop
  | [] => True
  | step :: program => step.op.Exact bank (bank step.target) ∧ Exact (step.exec bank) program

instance decidableExact : (bank : ι → Region) → (program : List (RegionStep ι)) →
    Decidable (Exact bank program)
  | _, [] => .isTrue trivial
  | bank, step :: program =>
    have := decidableExact (step.exec bank) program
    inferInstanceAs (Decidable (_ ∧ _))

/-- The registers after a program that starts with empty ones. -/
def run (program : List (RegionStep ι)) : ι → Region := program.foldl exec (fun _ => Region.empty)

/-- The registers of sets after the same program. -/
def runSet (program : List (RegionStep ι)) : ι → Set Point := program.foldl execSet (fun _ => ∅)

/-- What every step of a program preserves, whatever registers it meets, all registers have after the program. -/
theorem run_induction {P : Region → Prop} (program : List (RegionStep ι)) (hempty : P Region.empty)
    (hstep : ∀ step ∈ program, ∀ bank : ι → Region, (∀ i, P (bank i)) →
      P (step.op.apply bank (bank step.target))) (i : ι) : P (run program i) := by
  have hfold : ∀ i, P (program.foldl exec (fun _ => Region.empty) i) := by
    refine List.foldlRecOn (motive := fun bank => ∀ i, P (bank i)) program exec ?_ ?_
    · intro j
      exact hempty
    intro bank hbank step hmem j
    unfold exec
    by_cases hj : j = step.target
    · subst hj
      rw [Function.update_self]
      exact hstep step hmem bank hbank
    · rw [Function.update_of_ne hj]
      exact hbank j
  exact hfold i

/-- What a step preserves: every register denotes its set. -/
theorem denotes_exec {bank : ι → Region} {sets : ι → Set Point}
    (hbank : ∀ i, RegionOp.Denotes (bank i) (sets i)) (step : RegionStep ι)
    (hexact : step.op.Exact bank (bank step.target)) (i : ι) :
    RegionOp.Denotes (exec bank step i) (execSet sets step i) := by
  unfold exec execSet
  by_cases hi : i = step.target
  · subst hi
    rw [Function.update_self, Function.update_self]
    exact RegionOp.denotes_apply hbank (hbank step.target) step.op hexact
  · rw [Function.update_of_ne hi, Function.update_of_ne hi]
    exact hbank i

/-- What a run preserves, from any registers that denote sets. -/
theorem denotes_foldl (program : List (RegionStep ι)) {bank : ι → Region} {sets : ι → Set Point}
    (hbank : ∀ i, RegionOp.Denotes (bank i) (sets i)) (hexact : Exact bank program) (i : ι) :
    RegionOp.Denotes (program.foldl exec bank i) (program.foldl execSet sets i) := by
  induction program generalizing bank sets with
  | nil => exact hbank i
  | cons step program ih => exact ih (denotes_exec hbank step hexact.1) hexact.2

/-- **Regions refine sets of points.** After an exact program every register denotes the set that the program
computes over sets, and has no rectangle exactly when that set is empty. -/
theorem run_points (program : List (RegionStep ι)) (hexact : Exact (fun _ => Region.empty) program)
    (i : ι) :
    (run program i).points = runSet program i ∧
      ((run program i).isEmpty = true ↔ runSet program i = ∅) := by
  have h : RegionOp.Denotes (run program i) (runSet program i) :=
    denotes_foldl program (fun _ => RegionOp.denotes_empty) hexact i
  constructor
  · ext p
    rw [h.solid.mem_points, h.covers]
  · rw [Region.isEmpty_iff h.solid, Set.eq_empty_iff_forall_notMem]
    exact forall_congr' fun p => not_congr (h.covers p)

/-- A square given by its corners the wrong way round, a moved copy of it, and what the copy has of its own. -/
def movedSquare : List (RegionStep Bool) :=
  [⟨false, .ofRect ⟨Binary.ofInt 4, 0, 0, Binary.ofInt 4⟩⟩,
    ⟨true, .unionAt false ⟨Binary.ofInt 2, 1⟩⟩,
    ⟨true, .diff false⟩,
    ⟨false, .shift ⟨-1, 0⟩⟩,
    ⟨true, .interAt true ⟨1, 1⟩⟩]

theorem run_points_movedSquare :
    Exact (fun _ => Region.empty) movedSquare ∧
      (run movedSquare true).points = runSet movedSquare true ∧
      ((run movedSquare true).isEmpty = true ↔ runSet movedSquare true = ∅) :=
  have hexact : Exact (fun _ => Region.empty) movedSquare := by decide +kernel
  ⟨hexact, run_points movedSquare hexact true⟩

end RegionStep

end Repaint
