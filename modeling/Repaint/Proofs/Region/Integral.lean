import Repaint.Proofs.Region.Cells

/-!
# Programs over whole numbers

A program whose rectangles and offsets are whole leaves whole edges in every register with an area below `2^53`
(`run_gridded`), however often it rounds and however far out it goes in between.

* **rounding** — a sum of whole numbers is rounded to a whole number or beyond the range (`Binary.Integral.add`), and
  every other operation takes its edges from those that there are;
* **range** — a rectangle with an edge beyond the range has an infinite area or none at all
  (`Rect.isFinite_of_area`), and what is infinite stays so when areas are added up.
-/

namespace Repaint

/-- What is in step with a power of two is rounded to something in step with it. -/
theorem Format.pow2_dvd_round {fmt : Format} {low n : Nat} (h : pow2 low ∣ n) : pow2 low ∣ fmt.round n := by
  unfold round
  rcases Nat.le_total low (n.log2 - (fmt.precision - 1)) with hcoarse | hfine
  · exact Nat.dvd_mul_left_of_dvd (pow2_dvd_pow2 hcoarse) _
  · have hstep : fmt.spacing n ∣ n := Nat.dvd_trans (pow2_dvd_pow2 hfine) h
    have hpos : 0 < fmt.spacing n := pow2_pos _
    rwa [nearestWhole_of_dvd hpos hstep, Nat.div_mul_cancel hstep]

namespace Binary

variable {fmt : Format} {a b lo hi : Binary fmt}

/-- The number has no fraction: if it is finite, it is whole. -/
def Integral (a : Binary fmt) : Prop := a.isFinite = true → a.Whole

theorem integral_ofRatio (n : Int) : (ofRatio (n * pow2 fmt.scale) 1 : Binary fmt).Integral := by
  have hround : (pow2 fmt.scale : Int) ∣ fmt.roundInt (n * pow2 fmt.scale) := by
    have hunits : pow2 fmt.scale ∣ (n * pow2 fmt.scale : Int).natAbs := by
      rw [Int.natAbs_mul, Int.natAbs_natCast]
      exact Nat.dvd_mul_left _ _
    have h : (pow2 fmt.scale : Int) ∣ fmt.round (n * pow2 fmt.scale : Int).natAbs :=
      Int.natCast_dvd_natCast.mpr (Format.pow2_dvd_round hunits)
    unfold Format.roundInt
    split
    · exact Int.dvd_neg.mpr h
    · exact h
  obtain ⟨whole, hwhole⟩ := hround
  intro hfinite
  rw [ofRatio_units] at hfinite ⊢
  split at hfinite
  · cases hfinite
  split at hfinite
  · cases hfinite
  rw [if_neg ‹_›, if_neg ‹_›]
  exact ⟨whole, by rw [hwhole, Int.mul_comm]⟩

/-- Whole numbers are added to whole numbers, however they are rounded, as long as the sum is in the range. -/
theorem Integral.add (ha : a.Integral) (hb : b.Integral) : (a + b).Integral := by
  cases a with
  | finite units =>
    cases b with
    | finite others =>
      obtain ⟨m, hm⟩ := ha rfl
      obtain ⟨n, hn⟩ := hb rfl
      rw [hm, hn]
      show (ofRatio (m * pow2 fmt.scale + n * pow2 fmt.scale) 1).Integral
      rw [← Int.add_mul]
      exact integral_ofRatio (m + n)
    | _ => exact fun h => by cases h
  | _ => cases b <;> exact fun h => by cases h

/-- A stretch whose ends are in order is infinitely long, or its ends are finite. -/
theorem sub_of_not_lt (horder : ¬ hi < lo) (hlength : hi - lo ≠ nan) :
    0 ≤ hi - lo ∧ (hi - lo = posInf ∨ lo.isFinite = true ∧ hi.isFinite = true) := by
  cases lo with
  | finite m =>
    cases hi with
    | finite n =>
      have hmn : m ≤ n := not_lt.mp fun hlt => horder (decide_eq_true hlt)
      refine ⟨?_, Or.inr ⟨rfl, rfl⟩⟩
      have h : ofRatio 0 1 ≤ (ofRatio (n + -m) 1 : Binary fmt) := ofRatio_mono (by omega)
      rwa [ofRatio_one 0 (Nat.dvd_zero _) (pow2_pos fmt.range)] at h
    | posInf => exact ⟨rfl, Or.inl rfl⟩
    | negInf => exact absurd rfl horder
    | nan => exact absurd rfl hlength
  | negInf =>
    cases hi with
    | finite n => exact ⟨rfl, Or.inl rfl⟩
    | posInf => exact ⟨rfl, Or.inl rfl⟩
    | _ => exact absurd rfl hlength
  | posInf =>
    cases hi with
    | finite n => exact absurd rfl horder
    | negInf => exact absurd rfl horder
    | _ => exact absurd rfl hlength
  | nan => cases hi <;> exact absurd rfl hlength

/-- A product with an infinite length is infinite, if it is a number. -/
theorem posInf_mul_of_nonneg (hb : 0 ≤ b) (h : posInf * b ≠ nan) : posInf * b = posInf := by
  rcases le_def.mp hb with hpos | hzero
  · exact posInf_mul hpos
  · rw [← eq_of_agrees hzero] at h
    exact absurd rfl h

theorem add_nonneg (ha : 0 ≤ a) (hb : 0 ≤ b) : 0 ≤ a + b := by
  have hzero : (0 + 0 : Binary fmt) = 0 := ofRatio_one 0 (Nat.dvd_zero _) (pow2_pos fmt.range)
  have h := add_le_add ha hb (add_ne_nan_of_nonneg (le_refl_of_ne_nan (ne_nan_of_le ha).1)
    (le_refl_of_ne_nan (ne_nan_of_le hb).1)) (add_ne_nan_of_nonneg ha hb)
  rwa [hzero] at h

theorem mul_nonneg (ha : 0 ≤ a) (hb : 0 ≤ b) (h : a * b ≠ nan) : 0 ≤ a * b := by
  cases a with
  | finite m =>
    cases b with
    | finite n =>
      have hm : 0 ≤ m := finite_le_finite_iff.mp ha
      have hn : 0 ≤ n := finite_le_finite_iff.mp hb
      have hproduct : ¬ m * n < 0 := Int.not_lt.mpr (Int.mul_nonneg hm hn)
      show (finite 0 : Binary fmt) ≤ ofRatio (m * n) (pow2 fmt.scale)
      simp only [ofRatio, if_neg hproduct]
      split
      · exact finite_le_finite_iff.mpr (Int.natCast_nonneg _)
      · rfl
    | posInf =>
      rw [Binary.mul_comm] at h ⊢
      rw [posInf_mul_of_nonneg ha h]
      rfl
    | _ => cases hb
  | posInf =>
    rw [posInf_mul_of_nonneg hb h]
    rfl
  | _ => cases ha

end Binary

/-! ## Area -/

/-- A rectangle with its edges in order has a finite area only if its edges are finite. -/
theorem Rect.isFinite_of_area {r : Rect} (hupright : r.Upright) (harea : r.area ≠ .nan) :
    0 ≤ r.area ∧ (r.area ≠ .posInf → r.EdgesIn fun edge => edge.isFinite = true) := by
  obtain ⟨hwidth, hheight⟩ := Binary.ne_nan_of_mul_ne_nan harea
  obtain ⟨hwide, hcolumns⟩ := Binary.sub_of_not_lt hupright.1 hwidth
  obtain ⟨htall, hrows⟩ := Binary.sub_of_not_lt hupright.2 hheight
  refine ⟨Binary.mul_nonneg hwide htall harea, fun hfinite => ?_⟩
  rcases hcolumns with hendless | ⟨hleft, hright⟩
  · exfalso
    apply hfinite
    have hproduct : r.area = .posInf * r.height := congrArg (· * r.height) hendless
    rw [hproduct] at harea ⊢
    exact Binary.posInf_mul_of_nonneg htall harea
  rcases hrows with hendless | ⟨htop, hbottom⟩
  · exfalso
    apply hfinite
    have hproduct : r.area = .posInf * r.width := by
      rw [Binary.mul_comm]
      exact congrArg (r.width * ·) hendless
    rw [hproduct] at harea ⊢
    exact Binary.posInf_mul_of_nonneg hwide harea
  exact ⟨hleft, htop, hright, hbottom⟩

theorem foldl_area_posInf {rects : List Rect} (harea : ∀ r ∈ rects, 0 ≤ r.area) :
    rects.foldl (fun sum rect => sum + rect.area) .posInf = .posInf := by
  refine List.foldlRecOn (motive := fun sum : Coord => sum = .posInf) rects _ rfl ?_
  intro sum hsum rect hrect
  rw [hsum]
  exact Binary.posInf_add (Binary.add_ne_nan_of_nonneg rfl (harea rect hrect))

/-- A sum of areas that is not infinite has no infinite part. -/
theorem area_ne_posInf_of_foldl {rects : List Rect} {sum : Coord} (harea : ∀ r ∈ rects, 0 ≤ r.area) (hsum : 0 ≤ sum)
    (h : rects.foldl (fun sum rect => sum + rect.area) sum ≠ .posInf) : ∀ r ∈ rects, r.area ≠ .posInf := by
  induction rects generalizing sum with
  | nil => simp
  | cons first rest ih =>
    obtain ⟨hfirst, hrest⟩ := List.forall_mem_cons.mp harea
    refine List.forall_mem_cons.mpr ⟨fun hendless => ?_, ih hrest (Binary.add_nonneg hsum hfirst) h⟩
    apply h
    rw [List.foldl_cons, hendless, Binary.add_posInf (Binary.add_ne_nan_of_nonneg hsum rfl)]
    exact foldl_area_posInf hrest

/-! ## The run -/

theorem Rect.EdgesIn.shift {r : Rect} {offset : Vec} (h : r.EdgesIn Binary.Integral) (hx : offset.x.Integral)
    (hy : offset.y.Integral) : (r.shift offset).EdgesIn Binary.Integral :=
  ⟨h.left.add hx, h.top.add hy, h.right.add hx, h.bottom.add hy⟩

theorem Region.EdgesIn.moved {r : Region} {offset : Vec} (h : r.EdgesIn Binary.Integral) (hx : offset.x.Integral)
    (hy : offset.y.Integral) : (r.moved offset).EdgesIn Binary.Integral := by
  intro piece hpiece
  obtain ⟨rect, hrect, rfl⟩ := List.mem_map.mp hpiece
  exact (h rect hrect).shift hx hy

/-- A region without fractions and with an area that doubles count exactly has whole edges. -/
theorem Region.Parted.gridded {r : Region} (h : r.Parted) (hintegral : r.EdgesIn Binary.Integral)
    (hsmall : r.area < Binary.ofInt (pow2 53)) : r.Gridded := by
  refine ⟨fun rect hrect => ?_, hsmall⟩
  have hnumber := (ne_nan_of_foldl_area (Binary.ne_nan_of_lt_left hsmall)).2
  have hfinite := fun rect hrect => Rect.isFinite_of_area (h.upright rect hrect) (hnumber rect hrect)
  have hbounded : r.area ≠ .posInf := by
    intro hendless
    rw [hendless] at hsmall
    exact Binary.not_lt_of_le (Binary.le_posInf (Binary.ne_nan_of_lt_right hsmall)) hsmall
  have hparts := area_ne_posInf_of_foldl (fun rect hrect => (hfinite rect hrect).1) rfl hbounded
  have hedges := (hfinite rect hrect).2 (hparts rect hrect)
  have hwhole := hintegral rect hrect
  exact ⟨hwhole.left hedges.left, hwhole.top hedges.top, hwhole.right hedges.right, hwhole.bottom hedges.bottom⟩

namespace RegionOp

variable {ι : Type}

/-- The rectangles and offsets that the operation is given are whole. -/
def Whole : RegionOp ι → Prop
  | ofRect rect | add rect | remove rect | clip rect => rect.EdgesIn Binary.Whole
  | ofRects rects => ∀ rect ∈ rects, rect.EdgesIn Binary.Whole
  | shift offset | unionAt _ offset | diffAt _ offset | interAt _ offset => offset.x.Whole ∧ offset.y.Whole
  | new | clear | copy _ | union _ | diff _ | inter _ => True

theorem Whole.movesFinitely {op : RegionOp ι} (h : op.Whole) : op.MovesFinitely := by
  have hfinite {a : Coord} (ha : a.Whole) : a.isFinite = true := by
    obtain ⟨_, rfl⟩ := ha
    rfl
  cases op with
  | shift offset => exact ⟨hfinite h.1, hfinite h.2⟩
  | interAt other offset => exact ⟨hfinite h.1, hfinite h.2⟩
  | _ => trivial

/-- What an operation preserves that is given nothing but whole numbers. -/
theorem integral_apply {bank : ι → Region} {r : Region} (hbank : ∀ i, (bank i).EdgesIn Binary.Integral)
    (h : r.EdgesIn Binary.Integral) (op : RegionOp ι) (hwhole : op.Whole) :
    (op.apply bank r).EdgesIn Binary.Integral := by
  have hnumber {a : Coord} (ha : a.Whole) : a.Integral := fun _ => ha
  have hgiven {rect : Rect} (hrect : rect.EdgesIn Binary.Whole) : rect.EdgesIn Binary.Integral :=
    ⟨hnumber hrect.left, hnumber hrect.top, hnumber hrect.right, hnumber hrect.bottom⟩
  refine op.apply_induction (Q := Rect.EdgesIn Binary.Integral) Region.EdgesIn.empty
    (fun _ _ hrect h => h.add fun _ => hrect.normalize) (fun _ _ hrect h => h.remove hrect.normalize)
    (fun _ _ hrect h => h.clip hrect) (fun _ _ h h' => h.inter h') hbank h ?_ ?_ ?_
  · intro rect hrect
    cases op with
    | ofRects rects => exact hgiven (hwhole rect hrect)
    | union other => exact hbank other rect hrect
    | diff other => exact hbank other rect hrect
    | unionAt other offset => exact (hbank other).moved (hnumber hwhole.1) (hnumber hwhole.2) rect hrect
    | diffAt other offset => exact (hbank other).moved (hnumber hwhole.1) (hnumber hwhole.2) rect hrect
    | ofRect given | add given | remove given | clip given =>
      rw [List.mem_singleton.mp hrect]
      exact hgiven hwhole
    | _ => cases hrect
  · intro offset hop
    subst hop
    exact h.moved (hnumber hwhole.1) (hnumber hwhole.2)
  · intro other offset hop
    subst hop
    exact (hbank other).moved (hnumber hwhole.1) (hnumber hwhole.2)

end RegionOp

/-- **Programs over whole numbers.** Where every rectangle and offset is whole, every register with an area below `2^53`
has whole edges. -/
theorem RegionStep.run_gridded {ι : Type} [DecidableEq ι] (program : List (RegionStep ι))
    (hwhole : ∀ step ∈ program, step.op.Whole) (i : ι) (hsmall : (run program i).area < Binary.ofInt (pow2 53)) :
    (∀ step ∈ program, step.op.MovesFinitely) ∧ (run program i).Gridded := by
  have hfinite : ∀ step ∈ program, step.op.MovesFinitely := fun step hstep => (hwhole step hstep).movesFinitely
  have hintegral : (run program i).EdgesIn Binary.Integral :=
    run_induction program Region.EdgesIn.empty
      (fun step hstep _ hbank => RegionOp.integral_apply hbank (hbank step.target) step.op (hwhole step hstep)) i
  exact ⟨hfinite, (run_parted program hfinite i).gridded hintegral hsmall⟩

end Repaint
