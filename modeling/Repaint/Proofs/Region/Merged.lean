import Repaint.Proofs.Region.Tiling
import Mathlib.Logic.Function.Iterate

/-!
# Added rectangles are merged to the end

Adding a rectangle to a region ends with passes that join rectangles, until one of them joins nothing. What is left
then has no two rectangles that are one together, and neither has any region that was made by adding rectangles and
regions to the empty one (`RegionStep.run_merged`).

* **two rectangles** — `Rect.join?` misses nothing: two rectangles that are apart can be joined iff a rectangle has the
  points of both (`Rect.not_covers_union_of_join`);
* **one pass** — a pass after which the list is as long as before has tried every pair and changed none
  (`mergePass_of_not_lt`), although a rectangle that was joined changes what its neighbours can be joined with;
* **all passes** — every pass but the last one leaves fewer rectangles, so there are no more of them than rectangles
  (`mergeAll_passes`).
-/

namespace Repaint

/-! ## Stretches that are one together -/

namespace Binary

variable {fmt : Format} {a lo hi lo₁ hi₁ lo₂ hi₂ : Binary fmt} {x y : ℝ}

theorem agrees_iff_eq (h : lo ≠ nan) : lo.agrees hi = true ↔ lo = hi :=
  ⟨eq_of_agrees, fun heq => heq ▸ agrees_self h⟩

/-- The stretch from the one number up to the other holds the real number. -/
def Between (lo hi : Binary fmt) (x : ℝ) : Prop := lo.AtMost x ∧ hi.Exceeds x

theorem lt_of_exceeds_of_atMost (hx : a.Exceeds x) (hy : a.AtMost y) : x < y := by
  by_contra hle
  exact (exceeds_iff_not_atMost hx.ne_nan).mp hx (hy.mono (not_lt.mp hle))

/-- A stretch that lies in another one begins and ends within it. -/
theorem not_lt_of_between (h₁ : lo₁ < hi₁) (h₂ : lo₂ < hi₂) (hsub : ∀ x, Between lo₁ hi₁ x → Between lo₂ hi₂ x) :
    ¬ lo₁ < lo₂ ∧ ¬ hi₂ < hi₁ := by
  have hl₁ := ne_nan_of_lt_left h₁
  have hh₁ := ne_nan_of_lt_right h₁
  have hl₂ := ne_nan_of_lt_left h₂
  have hh₂ := ne_nan_of_lt_right h₂
  constructor
  · intro hlt
    have hstart : lo₁ < min hi₁ lo₂ := min_mem (P := fun hi => lo₁ < hi) h₁ hlt
    obtain ⟨x, hlo, hhi⟩ := lt_iff_exists_between.mp hstart
    obtain ⟨hin, hbefore⟩ := (exceeds_min hh₁ hl₂).mp hhi
    exact (exceeds_iff_not_atMost hl₂).mp hbefore (hsub x ⟨hlo, hin⟩).1
  · intro hlt
    have hend : max lo₁ hi₂ < hi₁ := max_mem (P := fun lo => lo < hi₁) h₁ hlt
    obtain ⟨x, hlo, hhi⟩ := lt_iff_exists_between.mp hend
    obtain ⟨hin, hbehind⟩ := (atMost_max hl₁ hh₂).mp hlo
    exact (exceeds_iff_not_atMost hh₂).mp (hsub x ⟨hin, hhi⟩).2 hbehind

/-- Stretches that hold the same numbers have the same ends. -/
theorem ends_eq_of_between (h₁ : lo₁ < hi₁) (h₂ : lo₂ < hi₂) (hsame : ∀ x, Between lo₁ hi₁ x ↔ Between lo₂ hi₂ x) :
    lo₁ = lo₂ ∧ hi₁ = hi₂ := by
  obtain ⟨hlo, hhi⟩ := not_lt_of_between h₁ h₂ fun x => (hsame x).mp
  obtain ⟨hlo', hhi'⟩ := not_lt_of_between h₂ h₁ fun x => (hsame x).mpr
  exact ⟨eq_of_not_lt (ne_nan_of_lt_left h₁) (ne_nan_of_lt_left h₂) hlo hlo',
    eq_of_not_lt (ne_nan_of_lt_right h₁) (ne_nan_of_lt_right h₂) hhi' hhi⟩

/-- Two stretches, the first before the second, that make one stretch together meet end to end. -/
theorem eq_of_between_union (h₁ : lo₁ < hi₁) (h₂ : lo₂ < hi₂) (hbefore : ¬ lo₂ < hi₁)
    (hunion : ∀ x, Between lo hi x ↔ Between lo₁ hi₁ x ∨ Between lo₂ hi₂ x) : hi₁ = lo₂ := by
  have hh₁ := ne_nan_of_lt_right h₁
  have hl₂ := ne_nan_of_lt_left h₂
  refine eq_of_not_lt hh₁ hl₂ (fun hgap => ?_) hbefore
  -- a number in the gap lies between numbers of either stretch, but in neither
  obtain ⟨x, hend, hstart⟩ := lt_iff_exists_between.mp hgap
  obtain ⟨y, hy⟩ := lt_iff_exists_between.mp h₁
  obtain ⟨z, hz⟩ := lt_iff_exists_between.mp h₂
  have hyx : y < x := lt_of_exceeds_of_atMost hy.2 hend
  have hxz : x < z := lt_of_exceeds_of_atMost hstart hz.1
  have hlo : lo.AtMost x := ((hunion y).mpr (Or.inl hy)).1.mono hyx.le
  have hhi : hi.Exceeds x := ((hunion z).mpr (Or.inr hz)).2.mono hxz.le
  rcases (hunion x).mp ⟨hlo, hhi⟩ with hin | hin
  · exact (exceeds_iff_not_atMost hh₁).mp hin.2 hend
  · exact (exceeds_iff_not_atMost hl₂).mp hstart hin.1

/-- Two stretches that share nothing and make one stretch together meet end to end. -/
theorem meet_of_between_union (h₁ : lo₁ < hi₁) (h₂ : lo₂ < hi₂)
    (hapart : ∀ x, Between lo₁ hi₁ x → ¬ Between lo₂ hi₂ x)
    (hunion : ∀ x, Between lo hi x ↔ Between lo₁ hi₁ x ∨ Between lo₂ hi₂ x) : hi₁ = lo₂ ∨ hi₂ = lo₁ := by
  by_cases hbefore : lo₂ < hi₁
  · by_cases hbehind : lo₁ < hi₂
    · obtain ⟨x, hlo, hhi⟩ := lt_iff_exists_between.mp (max_lt_min h₁ h₂ hbehind hbefore)
      rw [atMost_max (ne_nan_of_lt_left h₁) (ne_nan_of_lt_left h₂)] at hlo
      rw [exceeds_min (ne_nan_of_lt_right h₁) (ne_nan_of_lt_right h₂)] at hhi
      exact absurd ⟨hlo.2, hhi.2⟩ (hapart x ⟨hlo.1, hhi.1⟩)
    · exact Or.inr (eq_of_between_union h₂ h₁ hbehind fun x => (hunion x).trans Or.comm)
  · exact Or.inl (eq_of_between_union h₁ h₂ hbefore hunion)

end Binary

/-! ## Rectangles that are one together -/

section Sides

variable {A B C A' B' C' : ℝ → Prop}

/-- Where a box that is the union of two has a row that only the first one has, the first one has all columns. -/
theorem column_of_row (hunion : ∀ x y, C x ∧ C' y ↔ (A x ∧ A' y) ∨ (B x ∧ B' y)) (hA : ∃ x, A x) (hB' : ∃ y, B' y)
    {y : ℝ} (hy : A' y) (hy' : ¬ B' y) {x : ℝ} (hx : B x) : A x := by
  obtain ⟨x₁, hx₁⟩ := hA
  obtain ⟨y₁, hy₁⟩ := hB'
  have hcolumn : C x := ((hunion x y₁).mpr (Or.inr ⟨hx, hy₁⟩)).1
  have hrow : C' y := ((hunion x₁ y).mpr (Or.inl ⟨hx₁, hy⟩)).2
  rcases (hunion x y).mp ⟨hcolumn, hrow⟩ with hin | hin
  · exact hin.1
  · exact absurd hin.2 hy'

/-- If moreover the two share nothing, each has a row that the other has not, and so the same columns. -/
theorem columns_of_row (hunion : ∀ x y, C x ∧ C' y ↔ (A x ∧ A' y) ∨ (B x ∧ B' y))
    (hapart : ∀ x y, A x ∧ A' y → ¬ (B x ∧ B' y)) (hA : ∃ x, A x) (hB : ∃ x, B x) (hB' : ∃ y, B' y) {y : ℝ}
    (hy : A' y) (hy' : ¬ B' y) (x : ℝ) : A x ↔ B x := by
  have hBA (x : ℝ) : B x → A x := column_of_row hunion hA hB' hy hy'
  have hother : ∃ z, B' z ∧ ¬ A' z := by
    obtain ⟨x, hx⟩ := hB
    obtain ⟨z, hz⟩ := hB'
    exact ⟨z, hz, fun hz' => hapart x z ⟨hBA x hx, hz'⟩ ⟨hx, hz⟩⟩
  obtain ⟨z, hz, hz'⟩ := hother
  have hswap (x y : ℝ) : C x ∧ C' y ↔ (B x ∧ B' y) ∨ (A x ∧ A' y) := (hunion x y).trans Or.comm
  exact ⟨column_of_row hswap hB ⟨y, hy⟩ hz hz', hBA x⟩

/-- Boxes with the same rows share no column, and their union has the columns of both. -/
theorem columns_of_rows (hunion : ∀ x y, C x ∧ C' y ↔ (A x ∧ A' y) ∨ (B x ∧ B' y))
    (hapart : ∀ x y, A x ∧ A' y → ¬ (B x ∧ B' y)) (hA : ∃ x, A x) (hA' : ∃ y, A' y) (hrows : ∀ y, A' y ↔ B' y) :
    (∀ x, A x → ¬ B x) ∧ ∀ x, C x ↔ A x ∨ B x := by
  obtain ⟨x₁, hx₁⟩ := hA
  obtain ⟨y, hy⟩ := hA'
  have hy' : B' y := (hrows y).mp hy
  have hrow : C' y := ((hunion x₁ y).mpr (Or.inl ⟨hx₁, hy⟩)).2
  refine ⟨fun x hx hx' => hapart x y ⟨hx, hy⟩ ⟨hx', hy'⟩, fun x => ⟨fun hx => ?_, fun hx => ?_⟩⟩
  · exact ((hunion x y).mp ⟨hx, hrow⟩).imp And.left And.left
  · exact ((hunion x y).mpr (hx.imp (fun hx => ⟨hx, hy⟩) fun hx => ⟨hx, hy'⟩)).1

end Sides

namespace Rect

variable {a b c : Rect}

/-- Rectangles are joined where they have the same rows and meet in a vertical edge, or have the same columns and meet
in a horizontal one. -/
theorem join?_eq_ite (ha : a.Numeric) (hb : b.Numeric) : a.join? b =
    if (a.top = b.top ∧ a.bottom = b.bottom) ∧ (a.right = b.left ∨ b.right = a.left) then
      some ⟨min a.left b.left, a.top, max a.right b.right, a.bottom⟩
    else if (a.left = b.left ∧ a.right = b.right) ∧ (a.bottom = b.top ∨ b.bottom = a.top) then
      some ⟨a.left, min a.top b.top, a.right, max a.bottom b.bottom⟩
    else none := by
  simp only [join?, Bool.and_eq_true, Bool.or_eq_true, Binary.agrees_iff_eq ha.left, Binary.agrees_iff_eq ha.top,
    Binary.agrees_iff_eq ha.right, Binary.agrees_iff_eq ha.bottom, Binary.agrees_iff_eq hb.right,
    Binary.agrees_iff_eq hb.bottom]

theorem join?_eq_none_iff (ha : a.Numeric) (hb : b.Numeric) : a.join? b = none ↔
    ¬ ((a.top = b.top ∧ a.bottom = b.bottom) ∧ (a.right = b.left ∨ b.right = a.left)) ∧
      ¬ ((a.left = b.left ∧ a.right = b.right) ∧ (a.bottom = b.top ∨ b.bottom = a.top)) := by
  rw [join?_eq_ite ha hb]
  split
  · simp [*]
  · split
    · simp [*]
    · simp [*]

theorem join?_comm (ha : a.Numeric) (hb : b.Numeric) : a.join? b = b.join? a := by
  rw [join?_eq_ite ha hb, join?_eq_ite hb ha]
  simp only [eq_comm (a := b.top), eq_comm (a := b.bottom), eq_comm (a := b.left), eq_comm (a := b.right),
    or_comm (a := a.left = b.right), or_comm (a := a.top = b.bottom)]
  split
  · rename_i hrow
    rw [Binary.min_comm b.left, Binary.max_comm b.right, hrow.1.1, hrow.1.2]
  · split
    · rename_i hcolumn
      rw [Binary.min_comm b.top, Binary.max_comm b.bottom, hcolumn.1.1, hcolumn.1.2]
    · rfl

/-- Rectangles that are apart, and together a rectangle, can be joined. -/
theorem not_covers_union_of_join (ha : a.isEmpty = false) (hb : b.isEmpty = false) (hapart : a.Apart b)
    (hjoin : a.join? b = none) : ¬ ∀ p, c.covers p ↔ a.covers p ∨ b.covers p := by
  intro hc
  obtain ⟨hax, hay⟩ := isEmpty_eq_false_iff.mp ha
  obtain ⟨hbx, hby⟩ := isEmpty_eq_false_iff.mp hb
  have hjoin := (join?_eq_none_iff (numeric_of_isEmpty_eq_false ha) (numeric_of_isEmpty_eq_false hb)).mp hjoin
  have hunion (x y : ℝ) : (Binary.Between c.left c.right x ∧ Binary.Between c.top c.bottom y) ↔
      (Binary.Between a.left a.right x ∧ Binary.Between a.top a.bottom y) ∨
        (Binary.Between b.left b.right x ∧ Binary.Between b.top b.bottom y) := hc (x, y)
  have hnone (x y : ℝ) : Binary.Between a.left a.right x ∧ Binary.Between a.top a.bottom y →
      ¬ (Binary.Between b.left b.right x ∧ Binary.Between b.top b.bottom y) := hapart (x, y)
  have hcolumn := Binary.lt_iff_exists_between.mp hax
  have hrow := Binary.lt_iff_exists_between.mp hay
  have hcolumn' := Binary.lt_iff_exists_between.mp hbx
  have hrow' := Binary.lt_iff_exists_between.mp hby
  by_cases hrows : ∀ y, Binary.Between a.top a.bottom y ↔ Binary.Between b.top b.bottom y
  · obtain ⟨hcolumns, hboth⟩ := columns_of_rows hunion hnone hcolumn hrow hrows
    exact hjoin.1 ⟨Binary.ends_eq_of_between hay hby hrows, Binary.meet_of_between_union hax hbx hcolumns hboth⟩
  · have hcolumns : ∀ x, Binary.Between a.left a.right x ↔ Binary.Between b.left b.right x := by
      obtain ⟨y, hy⟩ := not_forall.mp hrows
      have hother := not_iff.mp hy
      by_cases hin : Binary.Between a.top a.bottom y
      · exact columns_of_row hunion hnone hcolumn hcolumn' hrow' hin fun hin' => hother.mpr hin' hin
      · intro x
        exact (columns_of_row (fun x y => (hunion x y).trans Or.comm) (fun x y hb ha => hnone x y ha hb) hcolumn'
          hcolumn hrow (hother.mp hin) hin x).symm
    -- the same with the axes exchanged
    have hunion' (y x : ℝ) : (Binary.Between c.top c.bottom y ∧ Binary.Between c.left c.right x) ↔
        (Binary.Between a.top a.bottom y ∧ Binary.Between a.left a.right x) ∨
          (Binary.Between b.top b.bottom y ∧ Binary.Between b.left b.right x) := by
      simpa only [and_comm] using hunion x y
    obtain ⟨hrows, hboth⟩ := columns_of_rows hunion' (fun y x ha hb => hnone x y ha.symm hb.symm) hrow hcolumn hcolumns
    exact hjoin.2 ⟨Binary.ends_eq_of_between hax hbx hcolumns, Binary.meet_of_between_union hay hby hrows hboth⟩

end Rect

/-! ## Merging -/

section Merging

variable {rects : List Rect}

/-- A rectangle that absorbs nothing can be joined with none of the others, and all stay as they are. -/
theorem absorb_of_length (grown : Rect) (rest : List Rect) (h : (absorb grown rest).2.length = rest.length) :
    absorb grown rest = (grown, rest) ∧ ∀ r ∈ rest, grown.join? r = none := by
  fun_induction absorb grown rest with
  | case1 grown => exact ⟨rfl, fun r hr => by cases hr⟩
  | case2 grown r others joined hjoin ih =>
    -- the list behind the joined rectangle has become shorter already
    have hle := length_absorb_le joined (fillGap (r :: others))
    rw [length_fillGap] at hle
    rw [List.length_cons] at h
    omega
  | case3 grown r others hjoin result =>
    rename_i ih
    obtain ⟨hsame, hnone⟩ := ih (Nat.succ.inj h)
    exact ⟨by rw [show result = _ from hsame], List.forall_mem_cons.mpr ⟨hjoin, hnone⟩⟩

theorem length_mergePass_le (rects : List Rect) : (mergePass rects).length ≤ rects.length := by
  fun_induction mergePass rects with
  | case1 => exact Nat.le_refl _
  | case2 r rest ih => exact Nat.succ_le_succ (Nat.le_trans ih (length_absorb_le r rest))

/-- A pass that leaves as many rectangles as there were has tried all pairs and joined none. -/
theorem mergePass_of_not_lt (h : ¬ (mergePass rects).length < rects.length) :
    mergePass rects = rects ∧ rects.Pairwise (fun a b => a.join? b = none) := by
  fun_induction mergePass rects with
  | case1 => exact ⟨rfl, .nil⟩
  | case2 r rest ih =>
    have hpass := length_mergePass_le (absorb r rest).2
    have habsorb := length_absorb_le r rest
    simp only [List.length_cons] at h
    obtain ⟨hsame, hnone⟩ := absorb_of_length r rest (by omega)
    have hothers : (absorb r rest).2 = rest := by rw [hsame]
    rw [hothers] at ih h
    obtain ⟨hrest, hpairs⟩ := ih (by omega)
    exact ⟨by rw [hothers, hsame, hrest], .cons hnone hpairs⟩

/-- The passes come to an end, after fewer of them than there are rectangles, and one more would change nothing. -/
theorem mergeAll_passes (rects : List Rect) :
    (∃ passes ≤ rects.length, mergeAll rects = mergePass^[passes] rects) ∧
      mergePass (mergeAll rects) = mergeAll rects ∧
      (mergeAll rects).Pairwise (fun a b => a.join? b = none) := by
  fun_induction mergeAll rects with
  | case1 rects hshorter ih =>
    obtain ⟨⟨passes, hle, hpasses⟩, hlast⟩ := ih
    exact ⟨⟨passes + 1, by omega, hpasses⟩, hlast⟩
  | case2 rects hlast =>
    obtain ⟨hsame, hpairs⟩ := mergePass_of_not_lt hlast
    rw [hsame]
    exact ⟨⟨0, Nat.zero_le _, rfl⟩, hsame, hpairs⟩

end Merging

/-! ## Regions -/

/-- The rectangles cannot be joined, in either order, and no rectangle has the points of both. -/
structure Rect.Separate (a b : Rect) : Prop where
  join : a.join? b = none
  join' : b.join? a = none
  union : ∀ whole : Rect, whole.points ≠ a.points ∪ b.points

namespace Region

variable {r s : Region} {rect : Rect}

/-- No two rectangles of the region could be one. -/
def Merged (r : Region) : Prop := r.rects.Pairwise Rect.Separate

theorem Tiling.merged (h : r.Tiling) (hpairs : r.rects.Pairwise (fun a b => a.join? b = none)) : r.Merged := by
  refine (hpairs.and h.apart).imp_of_mem fun {a b} ha hb ⟨hjoin, hapart⟩ => ?_
  have hsolid := h.solid a ha
  have hsolid' := h.solid b hb
  have hnumeric := Rect.numeric_of_isEmpty_eq_false hsolid
  have hnumeric' := Rect.numeric_of_isEmpty_eq_false hsolid'
  refine ⟨hjoin, by rwa [Rect.join?_comm hnumeric' hnumeric], fun whole hwhole => ?_⟩
  apply Rect.not_covers_union_of_join (c := whole.normalize) hsolid hsolid' hapart hjoin
  intro p
  have hp : p ∈ whole.points ↔ p ∈ a.points ∪ b.points := by rw [hwhole]
  rw [← Rect.normalize_eq_self hsolid, ← Rect.normalize_eq_self hsolid']
  exact hp

theorem Tiling.merged_add (h : r.Tiling) (hrect : rect.normalize.isEmpty = false) : (r.add rect).Merged := by
  apply h.add.merged
  rw [add_eq_mergeAll hrect]
  exact (mergeAll_passes _).2.2

/-- Adding keeps a region merged, whatever is added. -/
theorem Merged.add (hmerged : r.Merged) (h : r.Tiling) : (r.add rect).Merged := by
  cases hrect : rect.normalize.isEmpty with
  | true => rwa [add_of_isEmpty hrect]
  | false => exact h.merged_add hrect

end Region

/-! ## The run -/

namespace RegionOp

variable {ι : Type}

/-- The operation makes a region anew or adds to one. -/
def Adds : RegionOp ι → Prop
  | new | ofRect _ | ofRects _ | clear | copy _ | add _ | union _ | unionAt _ _ => True
  | shift _ | remove _ | diff _ | diffAt _ _ | clip _ | inter _ | interAt _ _ => False

instance : (op : RegionOp ι) → Decidable op.Adds
  | new | ofRect _ | ofRects _ | clear | copy _ | add _ | union _ | unionAt _ _ => .isTrue trivial
  | shift _ | remove _ | diff _ | diffAt _ _ | clip _ | inter _ | interAt _ _ => .isFalse id

/-- What an operation that adds preserves. -/
theorem merged_apply {bank : ι → Region} {r : Region} (hbank : ∀ i, (bank i).Tiling ∧ (bank i).Merged)
    (h : r.Tiling ∧ r.Merged) (op : RegionOp ι) (hadds : op.Adds) :
    (op.apply bank r).Tiling ∧ (op.apply bank r).Merged := by
  have hempty : Region.empty.Tiling ∧ Region.empty.Merged := ⟨Region.Tiling.empty, List.Pairwise.nil⟩
  have hmany {r : Region} (h : r.Tiling ∧ r.Merged) (rects : List Rect) :
      (rects.foldl Region.add r).Tiling ∧ (rects.foldl Region.add r).Merged :=
    List.foldlRecOn (motive := fun r => r.Tiling ∧ r.Merged) rects Region.add h
      fun _ h _ _ => ⟨h.1.add, h.2.add h.1⟩
  cases op with
  | new => exact hempty
  | clear => exact hempty
  | copy other => exact hbank other
  | ofRect rect => exact hmany hempty [rect]
  | ofRects rects => exact hmany hempty rects
  | add rect => exact hmany h [rect]
  | union other => exact hmany h (bank other).rects
  | unionAt other offset =>
    show (r.unionAt (bank other) offset).Tiling ∧ (r.unionAt (bank other) offset).Merged
    rw [Region.unionAt_eq_union_moved]
    exact hmany h ((bank other).moved offset).rects
  | _ => exact hadds.elim

end RegionOp

namespace RegionStep

/-- **Added rectangles are merged to the end.** Adding a rectangle with area to a tiling takes no more passes over the
pieces than there are pieces, another pass would change nothing, and no two of the rectangles that are left could be
one. So it is in every register after a program that does nothing but add, whatever rectangles it is given and wherever
it moves what it adds. -/
theorem run_merged :
    (∀ (r : Region) (rect : Rect), r.Tiling → rect.normalize.isEmpty = false →
      (∃ passes ≤ (r.pieces rect).length, (r.add rect).rects = mergePass^[passes] (r.pieces rect)) ∧
        mergePass (r.add rect).rects = (r.add rect).rects ∧ (r.add rect).Merged) ∧
      ∀ {ι : Type} [DecidableEq ι] (program : List (RegionStep ι)), (∀ step ∈ program, step.op.Adds) →
        ∀ i, (run program i).Merged := by
  constructor
  · intro r rect hr hrect
    have hmerged := hr.merged_add hrect
    obtain ⟨hpasses, hlast, _⟩ := mergeAll_passes (r.pieces rect)
    rw [Region.add_eq_mergeAll hrect] at hmerged ⊢
    exact ⟨hpasses, hlast, hmerged⟩
  · intro ι _ program hadds i
    have h := run_induction (P := fun r => r.Tiling ∧ r.Merged) program
      ⟨Region.Tiling.empty, List.Pairwise.nil⟩
      (fun step hstep _ hbank => RegionOp.merged_apply hbank (hbank step.target) step.op (hadds step hstep)) i
    exact h.2

/-- A square with a hole in its middle. -/
def holedSquare : Region :=
  (Region.ofRect ⟨0, 0, Binary.ofInt 3, Binary.ofInt 3⟩).remove ⟨1, 1, Binary.ofInt 2, Binary.ofInt 2⟩

/-- A row of two squares, the second one the wrong way round, and the same row moved below it. -/
def twoRows : List (RegionStep Bool) :=
  [⟨false, .ofRects [⟨0, 0, 1, 1⟩, ⟨Binary.ofInt 2, 1, 1, 0⟩]⟩,
    ⟨true, .unionAt false ⟨0, 1⟩⟩,
    ⟨true, .union false⟩]

theorem run_merged_holedSquare :
    holedSquare.Tiling ∧ (⟨1, 1, Binary.ofInt 2, Binary.ofInt 2⟩ : Rect).normalize.isEmpty = false ∧
      (holedSquare.add ⟨1, 1, Binary.ofInt 2, Binary.ofInt 2⟩).Merged ∧
      (∀ step ∈ twoRows, step.op.Adds) ∧ (run twoRows true).Merged := by
  have htiling : holedSquare.Tiling := Region.Tiling.empty.add.remove
  have hrect : (⟨1, 1, Binary.ofInt 2, Binary.ofInt 2⟩ : Rect).normalize.isEmpty = false := by decide +kernel
  have hadds : ∀ step ∈ twoRows, step.op.Adds := by decide
  exact ⟨htiling, hrect, (run_merged.1 holedSquare _ htiling hrect).2.2, hadds, run_merged.2 twoRows hadds true⟩

end RegionStep

end Repaint
