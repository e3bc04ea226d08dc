import Repaint.Proofs.Region.Cover
import Repaint.Proofs.Rounding

/-!
# Whole coordinates

Sums of whole numbers below `2^53` are not rounded (`Binary.WholeUpTo.sum`), and the operations on regions that clip
and merge take every edge from a rectangle that they were given (`Region.EdgesIn.add`, `Region.EdgesIn.clip`). So
regions of rectangles with whole edges keep whole edges, and what is grown and cut to size again is no further out
than before (`Rect.EdgesIn.meet_whole`).
-/

namespace Repaint

/-! ## Whole numbers -/

namespace Binary

variable {fmt : Format} {a b : Binary fmt} {m n : Nat}

/-- A whole number with no more bits than the format keeps is not rounded. -/
theorem ofRatio_whole (hrange : fmt.precision + fmt.scale ≤ fmt.range) {whole : Int}
    (hwhole : whole.natAbs < pow2 fmt.precision) :
    (ofRatio (whole * pow2 fmt.scale) 1 : Binary fmt) = .finite (whole * pow2 fmt.scale) := by
  have hunits : (whole * pow2 fmt.scale : Int).natAbs = whole.natAbs * pow2 fmt.scale := by
    rw [Int.natAbs_mul, Int.natAbs_natCast]
  have hbelow : whole.natAbs * pow2 fmt.scale < pow2 (fmt.precision + fmt.scale) := by
    rw [pow2_add]
    exact Nat.mul_lt_mul_of_pos_right hwhole (pow2_pos fmt.scale)
  apply ofRatio_one
  · rw [hunits]
    apply Nat.dvd_mul_left_of_dvd
    apply pow2_dvd_pow2
    rcases Nat.eq_zero_or_pos (whole.natAbs * pow2 fmt.scale) with hzero | hpos
    · rw [hzero, Nat.log2_zero]
      omega
    · have := (Nat.log2_lt (Nat.ne_of_gt hpos)).mpr hbelow
      omega
  · rw [hunits]
    exact Nat.lt_of_lt_of_le hbelow (pow2_le_pow2 hrange)

/-- The number is a whole one, and no further from zero than the bound. -/
def WholeUpTo (bound : Nat) (a : Binary fmt) : Prop :=
  ∃ whole : Int, whole.natAbs ≤ bound ∧ a = .finite (whole * pow2 fmt.scale)

namespace WholeUpTo

theorem mono (h : a.WholeUpTo m) (hmn : m ≤ n) : a.WholeUpTo n := by
  obtain ⟨whole, hwhole, rfl⟩ := h
  exact ⟨whole, Nat.le_trans hwhole hmn, rfl⟩

theorem neg (h : a.WholeUpTo m) : (-a).WholeUpTo m := by
  obtain ⟨whole, hwhole, rfl⟩ := h
  refine ⟨-whole, by omega, ?_⟩
  show finite (-(whole * pow2 fmt.scale)) = _
  rw [Int.neg_mul]

/-- A sum of whole numbers is a whole number, and not rounded as long as the format has the bits. -/
theorem sum (hrange : fmt.precision + fmt.scale ≤ fmt.range) (ha : a.WholeUpTo m) (hb : b.WholeUpTo n)
    (hsmall : m + n < pow2 fmt.precision) : a.addsExactly b = true ∧ (a + b).WholeUpTo (m + n) := by
  obtain ⟨x, hx, rfl⟩ := ha
  obtain ⟨y, hy, rfl⟩ := hb
  have hxy : (x + y).natAbs ≤ m + n := by omega
  have hsum : (finite (x * pow2 fmt.scale) + finite (y * pow2 fmt.scale) : Binary fmt) =
      finite ((x + y) * pow2 fmt.scale) := by
    show ofRatio (x * pow2 fmt.scale + y * pow2 fmt.scale) 1 = _
    rw [← Int.add_mul]
    exact ofRatio_whole hrange (Nat.lt_of_le_of_lt hxy hsmall)
  refine ⟨decide_eq_true ?_, x + y, hxy, hsum⟩
  rw [hsum, Int.add_mul]

/-- A whole number between two others is no further from zero than they are. -/
theorem of_between {lo hi : Binary fmt} (h : a.WholeUpTo n) (hlo : lo.WholeUpTo m) (hhi : hi.WholeUpTo m)
    (hbelow : ¬ a < lo) (habove : ¬ hi < a) : a.WholeUpTo m := by
  obtain ⟨x, hx, rfl⟩ := h
  obtain ⟨y, hy, rfl⟩ := hlo
  obtain ⟨z, hz, rfl⟩ := hhi
  have hpos : (0 : Int) < pow2 fmt.scale := Int.natCast_pos.mpr (pow2_pos fmt.scale)
  have hyx : y ≤ x := by
    by_contra hlt
    exact hbelow (decide_eq_true (Int.mul_lt_mul_of_pos_right (not_le.mp hlt) hpos))
  have hxz : x ≤ z := by
    by_contra hlt
    exact habove (decide_eq_true (Int.mul_lt_mul_of_pos_right (not_le.mp hlt) hpos))
  exact ⟨x, by omega, rfl⟩

end WholeUpTo

/-- Cutting a stretch of whole numbers to another one, with something left of it, leaves it within the bounds of the
other one. -/
theorem whole_between_meet {lo₁ hi₁ lo₂ hi₂ : Binary fmt} {x : ℝ} (hl₁ : lo₁.WholeUpTo n) (hh₁ : hi₁.WholeUpTo n)
    (hl₂ : lo₂.WholeUpTo m) (hh₂ : hi₂.WholeUpTo m) (hmn : m ≤ n) (hlo : (max lo₁ lo₂).AtMost x)
    (hhi : (max (min hi₁ hi₂) (max lo₁ lo₂)).Exceeds x) :
    (max lo₁ lo₂).WholeUpTo m ∧ (max (min hi₁ hi₂) (max lo₁ lo₂)).WholeUpTo m := by
  have hlow : (max lo₁ lo₂).WholeUpTo n := max_mem hl₁ (hl₂.mono hmn)
  have hhigh : (max (min hi₁ hi₂) (max lo₁ lo₂)).WholeUpTo n :=
    max_mem (min_mem hh₁ (hh₂.mono hmn)) hlow
  have hnan {c : Binary fmt} {k : Nat} (hc : c.WholeUpTo k) : c ≠ .nan := by
    obtain ⟨_, _, rfl⟩ := hc
    exact fun h => by cases h
  have hcut := (exceeds_max (min_ne_nan (hnan hh₁) (hnan hh₂)) (hnan hlow)).mp hhi
  have hin := (atMost_max (hnan hl₁) (hnan hl₂)).mp hlo
  have hend : hi₂.Exceeds x := by
    rcases hcut with hcut | hcut
    · exact ((exceeds_min (hnan hh₁) (hnan hh₂)).mp hcut).2
    · exact absurd hlo ((exceeds_iff_not_atMost (hnan hlow)).mp hcut)
  have hbefore : max lo₁ lo₂ < hi₂ := lt_of_atMost_of_exceeds hlo hend
  constructor
  · apply hlow.of_between hl₂ hh₂ _ (not_lt_of_lt hbefore)
    intro hlt
    obtain ⟨y, hy, hy'⟩ := lt_iff_exists_between.mp hlt
    exact (exceeds_iff_not_atMost (hnan hl₂)).mp hy' ((atMost_max (hnan hl₁) (hnan hl₂)).mp hy).2
  · apply hhigh.of_between hl₂ hh₂ (not_lt_of_lt (lt_of_atMost_of_exceeds hin.2 hhi))
    intro hlt
    obtain ⟨y, hy, hy'⟩ := lt_iff_exists_between.mp hlt
    rw [exceeds_max (min_ne_nan (hnan hh₁) (hnan hh₂)) (hnan hlow), exceeds_min (hnan hh₁) (hnan hh₂)] at hy'
    rcases hy' with hy' | hy'
    · exact (exceeds_iff_not_atMost (hnan hh₂)).mp hy'.2 hy
    · exact not_lt_of_lt hbefore (lt_of_atMost_of_exceeds hy hy')

end Binary

/-! ## Edges -/

namespace Rect

variable {a b r : Rect} {dx dy : Coord} {m n : Nat}

/-- Growing by whole numbers rounds no whole edge. -/
theorem EdgesIn.grow_whole (h : r.EdgesIn (Binary.WholeUpTo m)) (hdx : dx.WholeUpTo n) (hdy : dy.WholeUpTo n)
    (hsmall : m + n < pow2 53) :
    r.GrowsExactly dx dy ∧ (r.grow dx dy).EdgesIn (Binary.WholeUpTo (m + n)) := by
  have hsum {a b : Coord} (ha : a.WholeUpTo m) (hb : b.WholeUpTo n) :
      a.addsExactly b = true ∧ (a + b).WholeUpTo (m + n) := ha.sum (by decide) hb hsmall
  have hleft := hsum h.left hdx.neg
  have htop := hsum h.top hdy.neg
  have hright := hsum h.right hdx
  have hbottom := hsum h.bottom hdy
  exact ⟨⟨hleft.1, htop.1, hright.1, hbottom.1⟩, ⟨hleft.2, htop.2, hright.2, hbottom.2⟩⟩

/-- What is left of a rectangle cut to another one is within the bounds of that one. -/
theorem EdgesIn.meet_whole (ha : a.EdgesIn (Binary.WholeUpTo n)) (hb : b.EdgesIn (Binary.WholeUpTo m))
    (hmn : m ≤ n) (h : (a.meet b).isEmpty = false) : (a.meet b).EdgesIn (Binary.WholeUpTo m) := by
  obtain ⟨p, hx, hy⟩ := isEmpty_eq_false_iff_exists.mp h
  have hcolumn := Binary.whole_between_meet ha.left ha.right hb.left hb.right hmn hx.1 hx.2
  have hrow := Binary.whole_between_meet ha.top ha.bottom hb.top hb.bottom hmn hy.1 hy.2
  exact ⟨hcolumn.1, hrow.1, hcolumn.2, hrow.2⟩

end Rect

variable {P : Coord → Prop} {rects pieces : List Rect}

theorem edgesIn_foldl_punch (hpieces : ∀ r ∈ pieces, r.EdgesIn P) (hrects : ∀ r ∈ rects, r.EdgesIn P) :
    ∀ r ∈ rects.foldl punch pieces, r.EdgesIn P := by
  induction rects generalizing pieces with
  | nil => exact hpieces
  | cons hole rest ih =>
    obtain ⟨hhole, hrest⟩ := List.forall_mem_cons.mp hrects
    exact ih (edgesIn_punch hpieces hhole) hrest

theorem edgesIn_absorb (grown : Rect) (rest : List Rect) (hgrown : grown.EdgesIn P)
    (hrest : ∀ r ∈ rest, r.EdgesIn P) :
    (absorb grown rest).1.EdgesIn P ∧ ∀ r ∈ (absorb grown rest).2, r.EdgesIn P := by
  fun_induction absorb grown rest with
  | case1 grown => exact ⟨hgrown, hrest⟩
  | case2 grown r others joined hjoin ih =>
    obtain ⟨hr, hothers⟩ := List.forall_mem_cons.mp hrest
    apply ih (hgrown.join hr hjoin)
    intro s hs
    exact hothers s (mem_fillGap.mp hs)
  | case3 grown r others hjoin result ih =>
    obtain ⟨hr, hothers⟩ := List.forall_mem_cons.mp hrest
    obtain ⟨hfst, hsnd⟩ := ih hgrown hothers
    exact ⟨hfst, List.forall_mem_cons.mpr ⟨hr, hsnd⟩⟩

theorem edgesIn_mergePass (rects : List Rect) (h : ∀ r ∈ rects, r.EdgesIn P) :
    ∀ r ∈ mergePass rects, r.EdgesIn P := by
  fun_induction mergePass rects with
  | case1 => exact h
  | case2 r rest ih =>
    obtain ⟨hr, hrest⟩ := List.forall_mem_cons.mp h
    obtain ⟨hfst, hsnd⟩ := edgesIn_absorb r rest hr hrest
    exact List.forall_mem_cons.mpr ⟨hfst, ih hsnd⟩

theorem edgesIn_mergeAll (rects : List Rect) (h : ∀ r ∈ rects, r.EdgesIn P) :
    ∀ r ∈ mergeAll rects, r.EdgesIn P := by
  fun_induction mergeAll rects with
  | case1 rects _ ih => exact ih (edgesIn_mergePass rects h)
  | case2 rects _ => exact edgesIn_mergePass rects h

namespace Region

variable {r : Region} {rect : Rect}

/-- All edges of the region have a property. -/
def EdgesIn (P : Coord → Prop) (r : Region) : Prop := ∀ rect ∈ r.rects, rect.EdgesIn P

theorem EdgesIn.empty : Region.empty.EdgesIn P := by
  intro rect hrect
  cases hrect

theorem EdgesIn.add (h : r.EdgesIn P)
    (hrect : rect.normalize.isEmpty = false → rect.normalize.EdgesIn P) : (r.add rect).EdgesIn P := by
  cases hempty : rect.normalize.isEmpty with
  | true => rwa [add_of_isEmpty hempty]
  | false =>
    rw [add_eq_mergeAll hempty]
    have hnew : ∀ piece ∈ [rect.normalize], piece.EdgesIn P := by
      simpa using hrect hempty
    apply edgesIn_mergeAll
    intro piece hpiece
    rcases List.mem_append.mp (List.mem_filter.mp hpiece).1 with hpiece | hpiece
    · exact h piece hpiece
    · exact edgesIn_foldl_punch hnew h piece hpiece

theorem EdgesIn.foldl_add (h : r.EdgesIn P)
    (hrects : ∀ rect ∈ rects, rect.normalize.isEmpty = false → rect.normalize.EdgesIn P) :
    (rects.foldl Region.add r).EdgesIn P :=
  List.foldlRecOn rects Region.add h fun _ h rect hrect => h.add (hrects rect hrect)

theorem EdgesIn.remove (h : r.EdgesIn P) (hrect : rect.normalize.EdgesIn P) : (r.remove rect).EdgesIn P := by
  cases hempty : rect.normalize.isEmpty with
  | true => rwa [remove_of_isEmpty hempty]
  | false =>
    rw [remove_eq_punch hempty]
    intro piece hpiece
    exact edgesIn_punch h hrect piece (List.mem_filter.mp hpiece).1

theorem EdgesIn.union {s : Region} (h : r.EdgesIn P) (hs : s.EdgesIn P) : (r.union s).EdgesIn P :=
  h.foldl_add fun rect hrect _ => (hs rect hrect).normalize

theorem EdgesIn.inter {s : Region} (h : r.EdgesIn P) (hs : s.EdgesIn P) : (r.inter s).EdgesIn P := by
  intro piece hpiece
  obtain ⟨a, ha, hpiece⟩ := List.mem_flatMap.mp hpiece
  obtain ⟨b, hb, rfl⟩ := List.mem_map.mp (List.mem_filter.mp hpiece).1
  exact (h a ha).meet (hs b hb)

theorem EdgesIn.clip (h : r.EdgesIn P) (hrect : rect.EdgesIn P) : (r.clip rect).EdgesIn P := by
  intro piece hpiece
  obtain ⟨whole, hwhole, rfl⟩ := List.mem_map.mp (List.mem_filter.mp hpiece).1
  exact (h whole hwhole).meet hrect.normalize

end Region

end Repaint
