import Repaint.Proofs.History.Seat
import Repaint.Proofs.Rect

/-!
# What a painted layer shows

A window may come with any numbers for its place, its size and its opacities, infinities and not-a-number included.
The layer of a window that is to be painted has finite opacities, one of them not zero. Its bounds have area and
overlap the screen exactly when the sum of the window's place and its size is a number in both directions, and
another one than the place (`Window.Spans`, `painted_shows`): the edges are compared after that sum was rounded, and a
place that is not a number is beyond no edge.

* **opacities** — `isFinite_fade`: values that are not finite are cleared before anything is decided;
* **edges** — `Binary.overlap_of_spans`: one direction of an overlap, from the tests that a painted window has passed.
-/

namespace Repaint

namespace Binary

variable {fmt : Format} {a b lo length limit : Binary fmt}

theorem isFinite_orZero (a : Binary fmt) : a.orZero.isFinite = true := by
  cases a <;> rfl

/-- Of two different numbers one is the lesser. -/
theorem min_lt_max_iff (ha : a ≠ .nan) (hb : b ≠ .nan) : min a b < max a b ↔ b ≠ a := by
  rw [min_of_ne_nan ha hb, max_of_ne_nan ha hb]
  constructor
  · intro hlt heq
    subst heq
    rw [ite_self] at hlt
    exact Binary.lt_irrefl _ hlt
  · intro hne
    by_cases hba : b < a
    · rwa [if_pos hba, if_neg (not_lt_of_lt hba)]
    · have hab : a < b := by
        by_contra hab
        exact hne (eq_of_not_lt hb ha hba hab)
      rwa [if_neg hba, if_pos hab]

/-- A length that is laid off from a start ends at a number, and not at the start. -/
def Spans (start length : Binary fmt) : Prop := start + length ≠ .nan ∧ start + length ≠ start

instance (start length : Binary fmt) : Decidable (start.Spans length) :=
  inferInstanceAs (Decidable (_ ∧ _))

/-- A stretch that ends behind zero and starts before a positive limit holds something of what is between them. -/
theorem overlap_of_spans (h : lo.Spans length) (hlimit : 0 < limit) (hend : ¬ lo + length ≤ 0)
    (hstart : ¬ limit ≤ lo) :
    max (min lo (lo + length)) 0 < min (max lo (lo + length)) limit := by
  have hlo : lo ≠ .nan := ne_nan_of_add_ne_nan h.1
  have hzero : (0 : Binary fmt) ≠ .nan := ne_nan_of_lt_left hlimit
  have hbehind : 0 < lo + length := (not_le_iff_lt h.1 hzero).mp hend
  have hbefore : lo < limit := (not_le_iff_lt (ne_nan_of_lt_right hlimit) hlo).mp hstart
  have horder : min lo (lo + length) < max lo (lo + length) := (min_lt_max_iff hlo h.1).mpr h.2
  have hnear : min lo (lo + length) < limit := by
    rw [min_of_ne_nan hlo h.1]
    split
    · exact lt_trans ‹_› hbefore
    · exact hbefore
  have hfar : 0 < max lo (lo + length) := by
    rw [max_of_ne_nan hlo h.1]
    split
    · exact hbehind
    · rename_i hnot
      exact lt_of_lt_of_le hbehind (le_of_not_lt h.1 hlo hnot)
  apply max_mem (P := (· < min (max lo (lo + length)) limit))
  · exact min_mem (P := (min lo (lo + length) < ·)) horder hnear
  · exact min_mem (P := (0 < ·)) hfar hlimit

end Binary

theorem isFinite_fadedBlur (opacity target : Opacity) : (fadedBlur opacity target).isFinite = true := by
  unfold fadedBlur
  split
  · rfl
  · exact Binary.isFinite_orZero _

/-- The window reaches from its place to another one, in both directions. -/
def Window.Spans (w : Window) : Prop := w.origin.x.Spans w.size.width ∧ w.origin.y.Spans w.size.height

instance (w : Window) : Decidable w.Spans := inferInstanceAs (Decidable (_ ∧ _))

namespace Layer

/-- The layer's opacities are finite and not both zero, and a layer that hides what is beneath it has the full one. -/
structure Seen (l : Layer) : Prop where
  opacity : l.opacity.isFinite = true
  blur : l.blurOpacity.isFinite = true
  visible : ¬ (l.opacity = 0 ∧ l.blurOpacity = 0)
  full : l.isOpaque = true → l.opacity = 1

/-- The layer's bounds have numbers for edges, a width and a height, and overlap the screen. -/
structure InView (l : Layer) (screen : Size) : Prop where
  numeric : l.bounds.Numeric
  width : 0 < l.bounds.width
  height : 0 < l.bounds.height
  overlaps : l.bounds.overlaps ⟨0, 0, screen.width, screen.height⟩ = true

variable {l : Layer} {w : Window} {place : Nat} {screen : Size}

/-! ## Opacities -/

theorem isFinite_fade (l : Layer) (w : Window) :
    (l.fade w).opacity.isFinite = true ∧ (l.fade w).blurOpacity.isFinite = true :=
  ⟨Binary.isFinite_orZero _, isFinite_fadedBlur _ _⟩

/-- A layer that is not transparent has an opacity that is not zero. -/
theorem not_zero_of_isTransparent (h : l.isTransparent = false) : ¬ (l.opacity = 0 ∧ l.blurOpacity = 0) := by
  intro hzero
  simp only [isTransparent, hzero.1, hzero.2] at h
  exact Bool.false_ne_true h.symm

theorem seen_adopt (h : (l.drawn w).isTransparent = false) : ((l.drawn w).adopt w place).Seen where
  opacity := (isFinite_fade ((l.place w).castShadow w) w).1
  blur := (isFinite_fade ((l.place w).castShadow w) w).2
  visible := not_zero_of_isTransparent h
  full := by
    intro hhides
    simp only [adopt, Bool.and_eq_true] at hhides
    exact Binary.eq_of_agrees hhides.1.2

/-! ## Bounds -/

theorem bounds_adopt : ((l.drawn w).adopt w place).bounds = Rect.ofOrigin w.origin w.size := by
  unfold drawn castShadow
  cases w.shadow with
  | none => rfl
  | some shadow => rfl

/-- A window that spans, and lies beyond no edge of the screen, is in view. -/
theorem inView_of_spans (hbounds : l.bounds = Rect.ofOrigin w.origin w.size) (hspans : w.Spans)
    (hwidth : 0 < screen.width) (hheight : 0 < screen.height) (hinside : (l.place w).isOutside screen = false) :
    l.InView screen := by
  have hx : w.origin.x ≠ .nan := Binary.ne_nan_of_add_ne_nan hspans.1.1
  have hy : w.origin.y ≠ .nan := Binary.ne_nan_of_add_ne_nan hspans.2.1
  simp only [isOutside, place, Bool.or_eq_false_iff] at hinside
  obtain ⟨⟨⟨hright, hbottom⟩, hleft⟩, htop⟩ := hinside
  have harea : l.bounds.isEmpty = false := by
    rw [hbounds, Rect.isEmpty_eq_false_iff]
    exact ⟨(Binary.min_lt_max_iff hx hspans.1.1).mpr hspans.1.2, (Binary.min_lt_max_iff hy hspans.2.1).mpr hspans.2.2⟩
  refine ⟨Rect.numeric_of_isEmpty_eq_false harea, (Rect.extent_pos harea).1, (Rect.extent_pos harea).2, ?_⟩
  rw [hbounds]
  simp only [Rect.overlaps, Bool.and_eq_true, decide_eq_true_eq]
  exact ⟨Binary.overlap_of_spans hspans.1 hwidth (of_decide_eq_false hright) (of_decide_eq_false hleft),
    Binary.overlap_of_spans hspans.2 hheight (of_decide_eq_false hbottom) (of_decide_eq_false htop)⟩

/-- A layer in view comes from a window that spans: its edges are two numbers in each direction. -/
theorem InView.spans (h : l.InView screen) (hbounds : l.bounds = Rect.ofOrigin w.origin w.size)
    (hscreen : (⟨0, 0, screen.width, screen.height⟩ : Rect).Numeric) : w.Spans := by
  obtain ⟨p, hp, _⟩ := (Rect.overlaps_iff h.numeric hscreen).mp h.overlaps
  have harea := hp.isEmpty_eq_false
  rw [hbounds] at harea
  have hnumeric := Rect.numeric_of_isEmpty_normalize harea
  obtain ⟨hx, hy⟩ := Rect.isEmpty_eq_false_iff.mp harea
  exact ⟨⟨hnumeric.right, (Binary.min_lt_max_iff hnumeric.left hnumeric.right).mp hx⟩,
    hnumeric.bottom, (Binary.min_lt_max_iff hnumeric.top hnumeric.bottom).mp hy⟩

/-! ## Painted layers -/

/-- **What is painted can be seen.** Whatever numbers a window comes with, a layer that is to be painted has finite
opacities that are not both zero, and hides what is beneath it at the full opacity only. Its bounds are numbers, have a
width and a height and overlap the screen exactly when the window spans. -/
theorem painted_shows (hwidth : 0 < screen.width) (hheight : 0 < screen.height)
    (hpainted : (l.refresh w place screen).1 = true) :
    (l.refresh w place screen).2.Seen ∧ ((l.refresh w place screen).2.InView screen ↔ w.Spans) := by
  rcases refresh_cases l w place screen with ⟨_, hr⟩ | ⟨_, _, hr⟩ | ⟨_, _, _, hr⟩ | ⟨_, hshown, hseen, hr⟩
  · rw [hr] at hpainted
    cases hpainted
  · rw [hr] at hpainted
    cases hpainted
  · rw [hr] at hpainted
    cases hpainted
  · rw [hr]
    have hscreen : (⟨0, 0, screen.width, screen.height⟩ : Rect).Numeric :=
      ⟨Binary.ne_nan_of_lt_left hwidth, Binary.ne_nan_of_lt_left hheight, Binary.ne_nan_of_lt_right hwidth,
        Binary.ne_nan_of_lt_right hheight⟩
    refine ⟨seen_adopt hseen, fun h => h.spans bounds_adopt hscreen, fun h => ?_⟩
    exact inView_of_spans bounds_adopt h hwidth hheight (Bool.or_eq_false_iff.mp hshown).2

/-- A window half to the left of the screen and without end to the right, which fades from an opacity that is not a
number. -/
def endlessWindow : Window :=
  { origin := ⟨Binary.ofInt (-4), 0⟩, size := ⟨.posInf, Binary.ofInt 8⟩, opacity := Binary.ofFraction 1 2,
    fadeTarget := .nan }

/-- A square screen. -/
def squareScreen : Size := ⟨Binary.ofInt 32, Binary.ofInt 32⟩

theorem painted_shows_endlessWindow :
    0 < squareScreen.width ∧ 0 < squareScreen.height ∧
      (({} : Layer).refresh endlessWindow 0 squareScreen).1 = true ∧
      (({} : Layer).refresh endlessWindow 0 squareScreen).2.Seen ∧
      (({} : Layer).refresh endlessWindow 0 squareScreen).2.InView squareScreen :=
  have hpainted : (({} : Layer).refresh endlessWindow 0 squareScreen).1 = true := by decide +kernel
  have hshows := painted_shows (by decide +kernel) (by decide +kernel) hpainted
  ⟨by decide +kernel, by decide +kernel, hpainted, hshows.1, hshows.2.mpr (by decide +kernel)⟩

/-- A window whose place is not a number. -/
def nowhereWindow : Window := { origin := ⟨.nan, 0⟩, size := ⟨Binary.ofInt 8, Binary.ofInt 8⟩ }

/-- A window too narrow for the sum of its place and its width to be another number than its place. -/
def narrowWindow : Window := { origin := ⟨1, 0⟩, size := ⟨.finite 1, Binary.ofInt 8⟩ }

/-- Both windows are painted. The edges of the one are not numbers, and those of the other leave no width. -/
theorem painted_without_area :
    ((({} : Layer).refresh nowhereWindow 0 squareScreen).1 = true ∧
      ¬ (({} : Layer).refresh nowhereWindow 0 squareScreen).2.bounds.Numeric) ∧
      (({} : Layer).refresh narrowWindow 0 squareScreen).1 = true ∧
      (({} : Layer).refresh narrowWindow 0 squareScreen).2.bounds.width = 0 := by
  decide +kernel

end Layer

end Repaint
