import Repaint.Proofs.Rounding
import Mathlib.Tactic.Tauto

/-!
# Rectangles as sets of points

A rectangle covers the points between its edges, the left and top edge included. One whose edges are out of
order, or not numbers, covers nothing.

* **area** — a rectangle has area iff it covers a point (`Rect.isEmpty_eq_false_iff_exists`);
* **overlap** — two rectangles overlap iff they share a point (`Rect.overlaps_iff`);
* **cuts** — `meet`, `minus` and `join?` are intersection, difference and union (`Rect.covers_meet`,
  `Rect.covers_minus`, `Rect.covers_join`);
* **shifts** — an exact shift moves the covered points (`Rect.ShiftsExactly.covers_shift`);
* **growth** — an exact growth adds the points near the covered ones (`Rect.WidensExactly.covers_grow`), any other one
  those that are reached from them (`Rect.covers_grow`).
-/

namespace Repaint

/-- A point of the plane, by its distance from the left and from the top of the screen. -/
abbrev Point := ℝ × ℝ

/-- The points lie no further apart than `reach`, in either direction. -/
def Near (reach : ℝ × ℝ) (p q : Point) : Prop := |p.1 - q.1| ≤ reach.1 ∧ |p.2 - q.2| ≤ reach.2

/-- The points lie no further apart than `dx` and `dy`, which may be infinite. -/
def Within (dx dy : Coord) (p q : Point) : Prop := dx.AtLeast |p.1 - q.1| ∧ dy.AtLeast |p.2 - q.2|

/-- A rectangle that covers the point `q` covers `p` once it has grown by `dx` and `dy`, however its edges are
rounded. -/
def Reaches (dx dy : Coord) (p q : Point) : Prop := dx.Reaches p.1 q.1 ∧ dy.Reaches p.2 q.2

theorem Within.symm {dx dy : Coord} {p q : Point} (h : Within dx dy p q) : Within dx dy q p := by
  unfold Within
  rw [abs_sub_comm q.1, abs_sub_comm q.2]
  exact h

/-- The offset as a vector of the plane. -/
noncomputable def Vec.value (v : Vec) : Point := (v.x.value, v.y.value)

namespace Rect

variable {a b r : Rect} {p : Point}

/-- The point lies between the rectangle's edges, or on the left or the top one. -/
def covers (r : Rect) (p : Point) : Prop :=
  (r.left.AtMost p.1 ∧ r.right.Exceeds p.1) ∧ r.top.AtMost p.2 ∧ r.bottom.Exceeds p.2

/-- All four edges are numbers. -/
structure Numeric (r : Rect) : Prop where
  left : r.left ≠ .nan
  top : r.top ≠ .nan
  right : r.right ≠ .nan
  bottom : r.bottom ≠ .nan

instance (r : Rect) : Decidable r.Numeric :=
  decidable_of_iff (r.left ≠ .nan ∧ r.top ≠ .nan ∧ r.right ≠ .nan ∧ r.bottom ≠ .nan)
    ⟨fun ⟨h1, h2, h3, h4⟩ => ⟨h1, h2, h3, h4⟩, fun ⟨h1, h2, h3, h4⟩ => ⟨h1, h2, h3, h4⟩⟩

/-- All four edges have a property. -/
structure EdgesIn (P : Coord → Prop) (r : Rect) : Prop where
  left : P r.left
  top : P r.top
  right : P r.right
  bottom : P r.bottom

instance {P : Coord → Prop} [DecidablePred P] (r : Rect) : Decidable (r.EdgesIn P) :=
  decidable_of_iff (P r.left ∧ P r.top ∧ P r.right ∧ P r.bottom)
    ⟨fun ⟨h1, h2, h3, h4⟩ => ⟨h1, h2, h3, h4⟩, fun ⟨h1, h2, h3, h4⟩ => ⟨h1, h2, h3, h4⟩⟩

theorem numeric_iff : r.Numeric ↔ r.EdgesIn (· ≠ .nan) :=
  ⟨fun ⟨h1, h2, h3, h4⟩ => ⟨h1, h2, h3, h4⟩, fun ⟨h1, h2, h3, h4⟩ => ⟨h1, h2, h3, h4⟩⟩

/-- A rectangle that covers a point has numbers for edges. -/
theorem covers.numeric (h : r.covers p) : r.Numeric :=
  ⟨h.1.1.ne_nan, h.2.1.ne_nan, h.1.2.ne_nan, h.2.2.ne_nan⟩

/-! ## Area -/

theorem isEmpty_eq_false_iff : r.isEmpty = false ↔ r.left < r.right ∧ r.top < r.bottom := by
  simp [isEmpty]

/-- A rectangle has area iff it covers some point. -/
theorem isEmpty_eq_false_iff_exists : r.isEmpty = false ↔ ∃ p, r.covers p := by
  rw [isEmpty_eq_false_iff]
  constructor
  · rintro ⟨hx, hy⟩
    obtain ⟨x, hx⟩ := Binary.lt_iff_exists_between.mp hx
    obtain ⟨y, hy⟩ := Binary.lt_iff_exists_between.mp hy
    exact ⟨(x, y), hx, hy⟩
  · rintro ⟨p, hx, hy⟩
    exact ⟨Binary.lt_of_atMost_of_exceeds hx.1 hx.2, Binary.lt_of_atMost_of_exceeds hy.1 hy.2⟩

theorem covers.isEmpty_eq_false (h : r.covers p) : r.isEmpty = false :=
  isEmpty_eq_false_iff_exists.mpr ⟨p, h⟩

theorem not_covers_of_isEmpty (h : r.isEmpty = true) (p : Point) : ¬ r.covers p := by
  intro hp
  rw [hp.isEmpty_eq_false] at h
  exact Bool.false_ne_true h

theorem numeric_of_isEmpty_eq_false (h : r.isEmpty = false) : r.Numeric := by
  obtain ⟨p, hp⟩ := isEmpty_eq_false_iff_exists.mp h
  exact hp.numeric

/-- The sides of a rectangle with area have a length. -/
theorem extent_pos (h : r.isEmpty = false) : 0 < r.width ∧ 0 < r.height :=
  ⟨Binary.sub_pos_of_lt (isEmpty_eq_false_iff.mp h).1, Binary.sub_pos_of_lt (isEmpty_eq_false_iff.mp h).2⟩

/-! ## Normal form -/

theorem normalize_normalize (r : Rect) : r.normalize.normalize = r.normalize := by
  simp only [normalize, Binary.min_min_max, Binary.max_min_max]

/-- Edges that are in order stay as they are. -/
theorem normalize_of_le (hx : r.left ≤ r.right) (hy : r.top ≤ r.bottom) : r.normalize = r := by
  unfold normalize
  rw [Binary.min_of_le hx, Binary.min_of_le hy, Binary.max_of_le hx, Binary.max_of_le hy]

/-- A rectangle with area has its edges in order. -/
theorem normalize_eq_self (h : r.isEmpty = false) : r.normalize = r := by
  obtain ⟨hx, hy⟩ := isEmpty_eq_false_iff.mp h
  exact normalize_of_le (Binary.le_of_lt hx) (Binary.le_of_lt hy)

/-- Putting edges in order loses no point. -/
theorem covers.normalize (h : r.covers p) : r.normalize.covers p := by
  rw [normalize_eq_self h.isEmpty_eq_false]
  exact h

theorem EdgesIn.normalize {P : Coord → Prop} (h : r.EdgesIn P) : r.normalize.EdgesIn P :=
  ⟨Binary.min_mem h.left h.right, Binary.min_mem h.top h.bottom,
    Binary.max_mem h.left h.right, Binary.max_mem h.top h.bottom⟩

theorem Numeric.normalize (h : r.Numeric) : r.normalize.Numeric :=
  numeric_iff.mpr (numeric_iff.mp h).normalize

/-- The rectangle of a size at a position has its edges in order. -/
theorem normalize_ofOrigin (origin : Vec) (size : Size) :
    (ofOrigin origin size).normalize = ofOrigin origin size :=
  normalize_normalize _

/-- Putting edges in order gives no area to a rectangle with an edge that is not a number. -/
theorem numeric_of_isEmpty_normalize (h : r.normalize.isEmpty = false) : r.Numeric := by
  obtain ⟨hx, hy⟩ := isEmpty_eq_false_iff.mp h
  simp only [normalize] at hx hy
  constructor
  · intro hnan
    rw [hnan] at hx
    exact Binary.lt_irrefl r.right hx
  · intro hnan
    rw [hnan] at hy
    exact Binary.lt_irrefl r.bottom hy
  · intro hnan
    rw [hnan, Binary.min_nan, Binary.max_nan] at hx
    exact Binary.lt_irrefl _ hx
  · intro hnan
    rw [hnan, Binary.min_nan, Binary.max_nan] at hy
    exact Binary.lt_irrefl _ hy

/-! ## Intersection -/

theorem EdgesIn.meet {P : Coord → Prop} (ha : a.EdgesIn P) (hb : b.EdgesIn P) : (a.meet b).EdgesIn P :=
  ⟨Binary.max_mem ha.left hb.left, Binary.max_mem ha.top hb.top,
    Binary.max_mem (Binary.min_mem ha.right hb.right) (Binary.max_mem ha.left hb.left),
    Binary.max_mem (Binary.min_mem ha.bottom hb.bottom) (Binary.max_mem ha.top hb.top)⟩

/-- One direction of a meet: its far end, kept from coming before its near end, still bounds the points
beyond the near end. -/
theorem between_meet {fmt : Format} {lo₁ hi₁ lo₂ hi₂ : Binary fmt} {x : ℝ} (hl₁ : lo₁ ≠ .nan)
    (hh₁ : hi₁ ≠ .nan) (hl₂ : lo₂ ≠ .nan) (hh₂ : hi₂ ≠ .nan) :
    ((max lo₁ lo₂).AtMost x ∧ (max (min hi₁ hi₂) (max lo₁ lo₂)).Exceeds x) ↔
      (lo₁.AtMost x ∧ hi₁.Exceeds x) ∧ lo₂.AtMost x ∧ hi₂.Exceeds x := by
  have hlo := Binary.max_ne_nan hl₁ hl₂
  rw [Binary.exceeds_max (Binary.min_ne_nan hh₁ hh₂) hlo, Binary.exceeds_min hh₁ hh₂,
    Binary.exceeds_iff_not_atMost hlo, Binary.atMost_max hl₁ hl₂]
  tauto

/-- The rectangle shared by two covers what both cover. -/
theorem covers_meet (ha : a.Numeric) (hb : b.Numeric) :
    (a.meet b).covers p ↔ a.covers p ∧ b.covers p := by
  unfold covers Rect.meet
  rw [between_meet ha.left ha.right hb.left hb.right,
    between_meet ha.top ha.bottom hb.top hb.bottom]
  tauto

/-- The edges of a meet are in order. -/
theorem normalize_meet (ha : a.Numeric) (hb : b.Numeric) : (a.meet b).normalize = a.meet b := by
  have hleft := Binary.max_ne_nan ha.left hb.left
  have htop := Binary.max_ne_nan ha.top hb.top
  have hright := Binary.min_ne_nan ha.right hb.right
  have hbottom := Binary.min_ne_nan ha.bottom hb.bottom
  simp only [normalize, Rect.meet, Binary.min_max_self hleft hright, Binary.max_max_self hleft hright,
    Binary.min_max_self htop hbottom, Binary.max_max_self htop hbottom]

/-- Two rectangles overlap iff they share a point. -/
theorem overlaps_iff (ha : a.Numeric) (hb : b.Numeric) :
    a.overlaps b = true ↔ ∃ p, a.covers p ∧ b.covers p := by
  simp only [overlaps, Bool.and_eq_true, decide_eq_true_eq]
  constructor
  · rintro ⟨hx, hy⟩
    obtain ⟨x, hx1, hx2⟩ := Binary.lt_iff_exists_between.mp hx
    obtain ⟨y, hy1, hy2⟩ := Binary.lt_iff_exists_between.mp hy
    rw [Binary.atMost_max ha.left hb.left] at hx1
    rw [Binary.exceeds_min ha.right hb.right] at hx2
    rw [Binary.atMost_max ha.top hb.top] at hy1
    rw [Binary.exceeds_min ha.bottom hb.bottom] at hy2
    exact ⟨(x, y), ⟨⟨hx1.1, hx2.1⟩, hy1.1, hy2.1⟩, ⟨hx1.2, hx2.2⟩, hy1.2, hy2.2⟩
  · rintro ⟨p, ⟨hax, hay⟩, hbx, hby⟩
    exact ⟨Binary.lt_of_atMost_of_exceeds ((Binary.atMost_max ha.left hb.left).mpr ⟨hax.1, hbx.1⟩)
        ((Binary.exceeds_min ha.right hb.right).mpr ⟨hax.2, hbx.2⟩),
      Binary.lt_of_atMost_of_exceeds ((Binary.atMost_max ha.top hb.top).mpr ⟨hay.1, hby.1⟩)
        ((Binary.exceeds_min ha.bottom hb.bottom).mpr ⟨hay.2, hby.2⟩)⟩

/-- Two rectangles overlap iff the rectangle shared by them has area. Edges of the one that are not numbers cut nothing
off the other. -/
theorem overlaps_iff_meet (hb : b.Numeric) : a.overlaps b = true ↔ (a.meet b).isEmpty = false := by
  have hmax {c d : Coord} (hd : d ≠ .nan) : max c d ≠ .nan := (Binary.ne_nan_of_le (Binary.le_max_right hd)).2
  rw [isEmpty_eq_false_iff]
  simp only [overlaps, Rect.meet, Bool.and_eq_true, decide_eq_true_eq, Binary.lt_max_self_iff (hmax hb.left),
    Binary.lt_max_self_iff (hmax hb.top)]

/-- What overlaps anything has area. -/
theorem isEmpty_of_overlaps (hb : b.Numeric) (h : a.overlaps b = true) : b.isEmpty = false := by
  have hlt {c d lo hi : Coord} (hlo : lo ≠ .nan) (hhi : hi ≠ .nan) (h : max c lo < min d hi) : lo < hi :=
    Binary.lt_of_le_of_lt (Binary.le_max_right hlo) (Binary.lt_of_lt_of_le h (Binary.min_le_right hhi))
  simp only [overlaps, Bool.and_eq_true, decide_eq_true_eq] at h
  exact isEmpty_eq_false_iff.mpr ⟨hlt hb.left hb.right h.1, hlt hb.top hb.bottom h.2⟩

/-! ## Difference -/

theorem exists_mem_ite {c : Prop} [Decidable c] {parts : List Rect} :
    (∃ part ∈ (if c then parts else []), part.covers p) ↔ c ∧ ∃ part ∈ parts, part.covers p := by
  by_cases hc : c <;> simp [hc]

/-- What is left of a rectangle without another one covers what the one covers and the other does not. -/
theorem covers_minus (ha : a.Numeric) (hb : b.Numeric) :
    (∃ part ∈ a.minus b, part.covers p) ↔ a.covers p ∧ ¬ b.covers p := by
  simp only [minus, List.mem_append, or_and_right, exists_or, exists_mem_ite, List.mem_singleton,
    exists_eq_left]
  simp only [covers, Binary.atMost_max hb.right ha.left, Binary.exceeds_min hb.left ha.right,
    Binary.atMost_max hb.bottom ha.top, Binary.exceeds_min hb.top ha.bottom,
    Binary.atMost_max ha.top hb.top, Binary.exceeds_min ha.bottom hb.bottom]
  -- each part is listed only where it covers something
  have above : a.top.AtMost p.2 → b.top.Exceeds p.2 → a.top < b.top :=
    Binary.lt_of_atMost_of_exceeds
  have below : b.bottom.AtMost p.2 → a.bottom.Exceeds p.2 → b.bottom < a.bottom :=
    Binary.lt_of_atMost_of_exceeds
  have rows : (max a.top b.top).AtMost p.2 → (min a.bottom b.bottom).Exceeds p.2 →
      max a.top b.top < min a.bottom b.bottom := Binary.lt_of_atMost_of_exceeds
  rw [Binary.atMost_max ha.top hb.top, Binary.exceeds_min ha.bottom hb.bottom] at rows
  have before : a.left.AtMost p.1 → b.left.Exceeds p.1 → a.left < b.left :=
    Binary.lt_of_atMost_of_exceeds
  have after : b.right.AtMost p.1 → a.right.Exceeds p.1 → b.right < a.right :=
    Binary.lt_of_atMost_of_exceeds
  have hleft := Binary.exceeds_iff_not_atMost (x := p.1) hb.left
  have hright := Binary.exceeds_iff_not_atMost (x := p.1) hb.right
  have htop := Binary.exceeds_iff_not_atMost (x := p.2) hb.top
  have hbottom := Binary.exceeds_iff_not_atMost (x := p.2) hb.bottom
  grind

theorem EdgesIn.minus {P : Coord → Prop} (ha : a.EdgesIn P) (hb : b.EdgesIn P) :
    ∀ part ∈ a.minus b, part.EdgesIn P := by
  have htop : P (max a.top b.top) := Binary.max_mem ha.top hb.top
  have hbottom : P (min a.bottom b.bottom) := Binary.min_mem ha.bottom hb.bottom
  have habove : P (min b.top a.bottom) := Binary.min_mem hb.top ha.bottom
  have hbelow : P (max b.bottom a.top) := Binary.max_mem hb.bottom ha.top
  have hbefore : P (min b.left a.right) := Binary.min_mem hb.left ha.right
  have hafter : P (max b.right a.left) := Binary.max_mem hb.right ha.left
  obtain ⟨hl, ht, hr, hu⟩ := ha
  intro part hpart
  simp only [Rect.minus, List.mem_append] at hpart
  rcases hpart with (h | h) | h
  · split at h <;> simp at h
    subst h
    exact ⟨hl, ht, hr, habove⟩
  · split at h <;> simp at h
    subst h
    exact ⟨hl, hbelow, hr, hu⟩
  · split at h
    · rcases List.mem_append.mp h with h | h <;> split at h <;> simp at h <;> subst h
      · exact ⟨hl, htop, hbefore, hbottom⟩
      · exact ⟨hafter, htop, hr, hbottom⟩
    · cases h

/-! ## Union -/

/-- Two stretches of a line that meet end to end: the longer one reaches over both. -/
theorem between_hull {fmt : Format} {lo₁ hi₁ lo₂ hi₂ : Binary fmt} {x : ℝ} (h₁ : lo₁ < hi₁)
    (h₂ : lo₂ < hi₂) (htouch : hi₁ = lo₂ ∨ hi₂ = lo₁) :
    ((min lo₁ lo₂).AtMost x ∧ (max hi₁ hi₂).Exceeds x) ↔
      (lo₁.AtMost x ∧ hi₁.Exceeds x) ∨ lo₂.AtMost x ∧ hi₂.Exceeds x := by
  have hl₁ := Binary.ne_nan_of_lt_left h₁
  have hh₁ := Binary.ne_nan_of_lt_right h₁
  have hl₂ := Binary.ne_nan_of_lt_left h₂
  have hh₂ := Binary.ne_nan_of_lt_right h₂
  have order₁ : hi₁.AtMost x → lo₁.AtMost x :=
    fun h => h.of_not_lt hl₁ (Binary.not_lt_of_lt h₁)
  have order₂ : hi₂.AtMost x → lo₂.AtMost x :=
    fun h => h.of_not_lt hl₂ (Binary.not_lt_of_lt h₂)
  rw [Binary.atMost_min hl₁ hl₂, Binary.exceeds_max hh₁ hh₂, Binary.exceeds_iff_not_atMost hh₁,
    Binary.exceeds_iff_not_atMost hh₂]
  rcases htouch with rfl | rfl
  · tauto
  · tauto

/-- Two rectangles that can be joined become one that covers what either covers. -/
theorem covers_join (ha : a.isEmpty = false) (hb : b.isEmpty = false) {joined : Rect}
    (h : a.join? b = some joined) : joined.covers p ↔ a.covers p ∨ b.covers p := by
  obtain ⟨hax, hay⟩ := isEmpty_eq_false_iff.mp ha
  obtain ⟨hbx, hby⟩ := isEmpty_eq_false_iff.mp hb
  unfold join? at h
  split at h
  · rename_i hrow
    simp only [Bool.and_eq_true, Bool.or_eq_true] at hrow
    obtain ⟨⟨htop, hbottom⟩, htouch⟩ := hrow
    have htop := Binary.eq_of_agrees htop
    have hbottom := Binary.eq_of_agrees hbottom
    have htouch := htouch.imp Binary.eq_of_agrees Binary.eq_of_agrees
    cases h
    simp only [covers, between_hull hax hbx htouch, ← htop, ← hbottom]
    tauto
  · split at h
    · rename_i hcolumn
      simp only [Bool.and_eq_true, Bool.or_eq_true] at hcolumn
      obtain ⟨⟨hleft, hright⟩, htouch⟩ := hcolumn
      have hleft := Binary.eq_of_agrees hleft
      have hright := Binary.eq_of_agrees hright
      have htouch := htouch.imp Binary.eq_of_agrees Binary.eq_of_agrees
      cases h
      simp only [covers, between_hull hay hby htouch, ← hleft, ← hright]
      tauto
    · cases h

theorem EdgesIn.join {P : Coord → Prop} (ha : a.EdgesIn P) (hb : b.EdgesIn P) {joined : Rect}
    (h : a.join? b = some joined) : joined.EdgesIn P := by
  unfold join? at h
  split at h
  · cases h
    exact ⟨Binary.min_mem ha.left hb.left, ha.top, Binary.max_mem ha.right hb.right, ha.bottom⟩
  · split at h
    · cases h
      exact ⟨ha.left, Binary.min_mem ha.top hb.top, ha.right, Binary.max_mem ha.bottom hb.bottom⟩
    · cases h

theorem isEmpty_join (ha : a.isEmpty = false) (hb : b.isEmpty = false) {joined : Rect}
    (h : a.join? b = some joined) : joined.isEmpty = false := by
  obtain ⟨p, hp⟩ := isEmpty_eq_false_iff_exists.mp ha
  exact isEmpty_eq_false_iff_exists.mpr ⟨p, (covers_join ha hb h).mpr (Or.inl hp)⟩

/-! ## Shifts -/

/-- No edge is rounded when the rectangle moves by the offset, and the offset is finite. -/
structure ShiftsExactly (r : Rect) (offset : Vec) : Prop where
  left : r.left.addsExactly offset.x = true
  top : r.top.addsExactly offset.y = true
  right : r.right.addsExactly offset.x = true
  bottom : r.bottom.addsExactly offset.y = true

instance (r : Rect) (offset : Vec) : Decidable (r.ShiftsExactly offset) :=
  decidable_of_iff (r.left.addsExactly offset.x = true ∧ r.top.addsExactly offset.y = true ∧
      r.right.addsExactly offset.x = true ∧ r.bottom.addsExactly offset.y = true)
    ⟨fun ⟨h1, h2, h3, h4⟩ => ⟨h1, h2, h3, h4⟩, fun ⟨h1, h2, h3, h4⟩ => ⟨h1, h2, h3, h4⟩⟩

/-- An exact shift moves each covered point. -/
theorem ShiftsExactly.covers_shift {offset : Vec} (h : r.ShiftsExactly offset) :
    (r.shift offset).covers p ↔ r.covers (p - offset.value) := by
  simp only [covers, shift, Binary.atMost_add h.left, Binary.exceeds_add h.right,
    Binary.atMost_add h.top, Binary.exceeds_add h.bottom, Prod.fst_sub, Prod.snd_sub, Vec.value]

/-- An exact shift keeps the area. -/
theorem ShiftsExactly.isEmpty_shift {offset : Vec} (h : r.ShiftsExactly offset)
    (hr : r.isEmpty = false) : (r.shift offset).isEmpty = false := by
  obtain ⟨p, hp⟩ := isEmpty_eq_false_iff_exists.mp hr
  refine isEmpty_eq_false_iff_exists.mpr ⟨p + offset.value, h.covers_shift.mpr ?_⟩
  rwa [add_sub_cancel_right]

/-! ## Growth -/

/-- No edge is rounded when the rectangle grows, and it grows by finite numbers. -/
structure GrowsExactly (r : Rect) (dx dy : Coord) : Prop where
  left : r.left.addsExactly (-dx) = true
  top : r.top.addsExactly (-dy) = true
  right : r.right.addsExactly dx = true
  bottom : r.bottom.addsExactly dy = true

instance (r : Rect) (dx dy : Coord) : Decidable (r.GrowsExactly dx dy) :=
  decidable_of_iff (r.left.addsExactly (-dx) = true ∧ r.top.addsExactly (-dy) = true ∧
      r.right.addsExactly dx = true ∧ r.bottom.addsExactly dy = true)
    ⟨fun ⟨h1, h2, h3, h4⟩ => ⟨h1, h2, h3, h4⟩, fun ⟨h1, h2, h3, h4⟩ => ⟨h1, h2, h3, h4⟩⟩

/-- No edge is rounded when the rectangle grows, by finite numbers or by infinite ones. -/
structure WidensExactly (r : Rect) (dx dy : Coord) : Prop where
  columns : Binary.stretchesExactly r.left r.right dx = true
  rows : Binary.stretchesExactly r.top r.bottom dy = true

instance (r : Rect) (dx dy : Coord) : Decidable (r.WidensExactly dx dy) :=
  decidable_of_iff (Binary.stretchesExactly r.left r.right dx = true ∧
      Binary.stretchesExactly r.top r.bottom dy = true) ⟨fun ⟨h1, h2⟩ => ⟨h1, h2⟩, fun ⟨h1, h2⟩ => ⟨h1, h2⟩⟩

section Growth

variable {dx dy : Coord}

/-- Growing makes no number of an edge that is none. -/
theorem numeric_of_numeric_grow (h : (r.grow dx dy).Numeric) : r.Numeric := by
  have hnan {a b : Coord} (h : a + b ≠ .nan) : a ≠ .nan := by
    rintro rfl
    exact h rfl
  exact ⟨hnan h.left, hnan h.top, hnan h.right, hnan h.bottom⟩

/-- The edges of a rectangle that covers a point stay numbers. -/
theorem covers.numeric_grow (h : r.covers p) (hdx : dx.AtLeast 0) (hdy : dy.AtLeast 0) :
    (r.grow dx dy).Numeric :=
  ⟨h.1.1.sub_ne_nan hdx, h.2.1.sub_ne_nan hdy, h.1.2.add_ne_nan hdx, h.2.2.add_ne_nan hdy⟩

/-- Growing leaves edges that were in order in order. -/
theorem covers.normalize_grow (h : r.covers p) (hdx : dx.AtLeast 0) (hdy : dy.AtLeast 0) :
    (r.grow dx dy).normalize = r.grow dx dy := by
  have hn := h.numeric_grow hdx hdy
  obtain ⟨hx, hy⟩ := isEmpty_eq_false_iff.mp h.isEmpty_eq_false
  apply normalize_of_le
  · exact Binary.add_le_add (Binary.le_of_lt hx) hdx.neg_le hn.left hn.right
  · exact Binary.add_le_add (Binary.le_of_lt hy) hdy.neg_le hn.top hn.bottom

/-- A rectangle that has grown covers what its columns and its rows have come to hold. -/
theorem covers_grow_of_axes {X Y : ℝ → Prop}
    (hx : ((r.left - dx).AtMost p.1 ∧ (r.right + dx).Exceeds p.1) ↔ ∃ x, (r.left.AtMost x ∧ r.right.Exceeds x) ∧ X x)
    (hy : ((r.top - dy).AtMost p.2 ∧ (r.bottom + dy).Exceeds p.2) ↔ ∃ y, (r.top.AtMost y ∧ r.bottom.Exceeds y) ∧ Y y) :
    (r.grow dx dy).covers p ↔ ∃ q, r.covers q ∧ X q.1 ∧ Y q.2 := by
  constructor
  · intro ⟨hcolumns, hrows⟩
    obtain ⟨x, hleft, hX⟩ := hx.mp hcolumns
    obtain ⟨y, htop, hY⟩ := hy.mp hrows
    exact ⟨(x, y), ⟨hleft, htop⟩, hX, hY⟩
  · intro ⟨q, ⟨hcolumns, hrows⟩, hX, hY⟩
    exact ⟨hx.mpr ⟨q.1, hcolumns, hX⟩, hy.mpr ⟨q.2, hrows, hY⟩⟩

/-- A rectangle with area that grows covers the points that are reached from those that it covered. -/
theorem covers_grow (hr : r.isEmpty = false) (hdx : dx.AtLeast 0) (hdy : dy.AtLeast 0) :
    (r.grow dx dy).covers p ↔ ∃ q, r.covers q ∧ Reaches dx dy p q := by
  obtain ⟨hx, hy⟩ := isEmpty_eq_false_iff.mp hr
  exact covers_grow_of_axes (Binary.between_reaches hx hdx) (Binary.between_reaches hy hdy)

theorem GrowsExactly.widens (h : r.GrowsExactly dx dy) : r.WidensExactly dx dy :=
  ⟨Binary.stretchesExactly_iff.mpr (Or.inl ⟨h.left, h.right⟩),
    Binary.stretchesExactly_iff.mpr (Or.inl ⟨h.top, h.bottom⟩)⟩

theorem WidensExactly.numeric (h : r.WidensExactly dx dy) : r.Numeric :=
  have hx := (Binary.ne_nan_of_stretchesExactly h.columns).1
  have hy := (Binary.ne_nan_of_stretchesExactly h.rows).1
  ⟨hx.1, hy.1, hx.2, hy.2⟩

theorem WidensExactly.numeric_grow (h : r.WidensExactly dx dy) : (r.grow dx dy).Numeric :=
  have hx := (Binary.ne_nan_of_stretchesExactly h.columns).2
  have hy := (Binary.ne_nan_of_stretchesExactly h.rows).2
  ⟨hx.1, hy.1, hx.2, hy.2⟩

/-- A rectangle with area that grows exactly covers the points near those that it covered. -/
theorem WidensExactly.covers_grow (h : r.WidensExactly dx dy) (hr : r.isEmpty = false)
    (hdx : dx.AtLeast 0) (hdy : dy.AtLeast 0) :
    (r.grow dx dy).covers p ↔ ∃ q, r.covers q ∧ Within dx dy p q := by
  obtain ⟨hx, hy⟩ := isEmpty_eq_false_iff.mp hr
  exact covers_grow_of_axes (Binary.between_stretch hx hdx h.columns) (Binary.between_stretch hy hdy h.rows)

end Growth

end Rect

end Repaint
