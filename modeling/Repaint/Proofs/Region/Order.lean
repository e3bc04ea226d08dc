import Repaint.Proofs.Region.Cover
import Mathlib.Data.List.Forall2

/-!
# Region operations only compare edges

The operations on regions compare edges and take the lesser or the greater of two; none of them computes an edge. So
they do the same to two regions whose edges stand in the same order, rectangle for rectangle.

* **one edge** — a relation that keeps the order of what it pairs (`Binary.KeepsOrder`) also pairs the lesser and the
  greater of two numbers;
* **one rectangle** — rectangles with paired edges (`Rect.Paired`) overlap, leave parts and are joined alike;
* **the lists** — so the same rectangles are cut, dropped and merged in the same order, up to
  `Region.Paired.union`, `Region.Paired.diff` and `Region.Paired.inter`;
* **shifts** — a shift that rounds nothing keeps the order of the edges (`Binary.keepsOrder_moves`), so it may be made
  before an operation or after it (`Region.shift_commutes`).
-/

namespace Repaint

/-! ## Edges -/

namespace Binary

variable {fmt : Format} {R : Binary fmt → Binary fmt → Prop} {a a' b b' d : Binary fmt} {x : ℝ}

/-- What the relation pairs stands in the same order on either side, and is a number on both or on neither. -/
structure KeepsOrder (R : Binary fmt → Binary fmt → Prop) : Prop where
  nan_iff : ∀ {a a'}, R a a' → (a = nan ↔ a' = nan)
  lt_iff : ∀ {a a' b b'}, R a a' → R b b' → (a < b ↔ a' < b')

theorem agrees_iff_not_lt : a.agrees b = true ↔ (a ≠ nan ∧ b ≠ nan) ∧ ¬ a < b ∧ ¬ b < a := by
  constructor
  · intro h
    obtain rfl := eq_of_agrees h
    have ha : a ≠ nan := by
      rintro rfl
      cases h
    exact ⟨⟨ha, ha⟩, Binary.lt_irrefl a, Binary.lt_irrefl a⟩
  · rintro ⟨⟨ha, hb⟩, hlt, hgt⟩
    rw [eq_of_not_lt ha hb hlt hgt]
    exact agrees_self hb

namespace KeepsOrder

theorem agrees_eq (h : KeepsOrder R) (ha : R a a') (hb : R b b') : a.agrees b = a'.agrees b' := by
  rw [Bool.eq_iff_iff, agrees_iff_not_lt, agrees_iff_not_lt, h.lt_iff ha hb, h.lt_iff hb ha, ne_eq, ne_eq,
    h.nan_iff ha, h.nan_iff hb]

theorem min (h : KeepsOrder R) (ha : R a a') (hb : R b b') : R (min a b) (min a' b') := by
  by_cases hna : a = nan
  · rw [hna, (h.nan_iff ha).mp hna]
    exact hb
  by_cases hnb : b = nan
  · rwa [hnb, (h.nan_iff hb).mp hnb, min_nan, min_nan]
  rw [min_of_ne_nan hna hnb, min_of_ne_nan (mt (h.nan_iff ha).mpr hna) (mt (h.nan_iff hb).mpr hnb)]
  simp only [h.lt_iff hb ha]
  split
  · exact hb
  · exact ha

theorem max (h : KeepsOrder R) (ha : R a a') (hb : R b b') : R (max a b) (max a' b') := by
  by_cases hna : a = nan
  · rw [hna, (h.nan_iff ha).mp hna]
    exact hb
  by_cases hnb : b = nan
  · rwa [hnb, (h.nan_iff hb).mp hnb, max_nan, max_nan]
  rw [max_of_ne_nan hna hnb, max_of_ne_nan (mt (h.nan_iff ha).mpr hna) (mt (h.nan_iff hb).mpr hnb)]
  simp only [h.lt_iff ha hb]
  split
  · exact hb
  · exact ha

end KeepsOrder

end Binary

variable {X Y : Coord → Coord → Prop}

/-! ## Rectangles -/

/-- The edges of the two rectangles are paired, the vertical ones by the one relation and the horizontal ones by the
other. -/
structure Rect.Paired (X Y : Coord → Coord → Prop) (r r' : Rect) : Prop where
  left : X r.left r'.left
  top : Y r.top r'.top
  right : X r.right r'.right
  bottom : Y r.bottom r'.bottom

namespace Rect.Paired

variable {a a' b b' : Rect}

section

variable (hX : Binary.KeepsOrder X) (hY : Binary.KeepsOrder Y)
include hX hY

theorem normalize (h : Paired X Y a a') : Paired X Y a.normalize a'.normalize :=
  ⟨hX.min h.left h.right, hY.min h.top h.bottom, hX.max h.left h.right, hY.max h.top h.bottom⟩

theorem isEmpty_eq (h : Paired X Y a a') : a.isEmpty = a'.isEmpty := by
  simp only [isEmpty, hX.lt_iff h.left h.right, hY.lt_iff h.top h.bottom]

theorem overlaps_eq (ha : Paired X Y a a') (hb : Paired X Y b b') : a.overlaps b = a'.overlaps b' := by
  simp only [overlaps, hX.lt_iff (hX.max ha.left hb.left) (hX.min ha.right hb.right),
    hY.lt_iff (hY.max ha.top hb.top) (hY.min ha.bottom hb.bottom)]

theorem meet (ha : Paired X Y a a') (hb : Paired X Y b b') : Paired X Y (a.meet b) (a'.meet b') :=
  ⟨hX.max ha.left hb.left, hY.max ha.top hb.top,
    hX.max (hX.min ha.right hb.right) (hX.max ha.left hb.left),
    hY.max (hY.min ha.bottom hb.bottom) (hY.max ha.top hb.top)⟩

/-- The parts of a difference are paired, in order. -/
theorem minus (ha : Paired X Y a a') (hb : Paired X Y b b') :
    List.Forall₂ (Paired X Y) (a.minus b) (a'.minus b') := by
  have htop := hY.max ha.top hb.top
  have hbottom := hY.min ha.bottom hb.bottom
  have hpart {c c' : Prop} [Decidable c] [Decidable c'] {part part' : Rect} (hc : c ↔ c')
      (h : Paired X Y part part') :
      List.Forall₂ (Paired X Y) (if c then [part] else []) (if c' then [part'] else []) := by
    simp only [hc]
    split
    · exact .cons h .nil
    · exact .nil
  refine List.rel_append (List.rel_append ?_ ?_) ?_
  · exact hpart (hY.lt_iff ha.top hb.top) ⟨ha.left, ha.top, ha.right, hY.min hb.top ha.bottom⟩
  · exact hpart (hY.lt_iff hb.bottom ha.bottom) ⟨ha.left, hY.max hb.bottom ha.top, ha.right, ha.bottom⟩
  · simp only [hY.lt_iff htop hbottom]
    split
    · refine List.rel_append ?_ ?_
      · exact hpart (hX.lt_iff ha.left hb.left) ⟨ha.left, htop, hX.min hb.left ha.right, hbottom⟩
      · exact hpart (hX.lt_iff hb.right ha.right) ⟨hX.max hb.right ha.left, htop, ha.right, hbottom⟩
    · exact .nil

/-- Both pairs can be joined or neither. -/
theorem join? (ha : Paired X Y a a') (hb : Paired X Y b b') :
    Option.Rel (Paired X Y) (a.join? b) (a'.join? b') := by
  simp only [Rect.join?, hX.agrees_eq ha.left hb.left, hX.agrees_eq ha.right hb.right,
    hX.agrees_eq ha.right hb.left, hX.agrees_eq hb.right ha.left, hY.agrees_eq ha.top hb.top,
    hY.agrees_eq ha.bottom hb.bottom, hY.agrees_eq ha.bottom hb.top, hY.agrees_eq hb.bottom ha.top]
  split
  · exact .some ⟨hX.min ha.left hb.left, ha.top, hX.max ha.right hb.right, ha.bottom⟩
  · split
    · exact .some ⟨ha.left, hY.min ha.top hb.top, ha.right, hY.max ha.bottom hb.bottom⟩
    · exact .none

end

end Rect.Paired

/-! ## Lists of rectangles -/

section

variable {pieces pieces' rects rects' : List Rect} {hole hole' : Rect}

variable (hX : Binary.KeepsOrder X) (hY : Binary.KeepsOrder Y)
include hX hY

theorem paired_punch (hpieces : List.Forall₂ (Rect.Paired X Y) pieces pieces')
    (hhole : Rect.Paired X Y hole hole') :
    List.Forall₂ (Rect.Paired X Y) (punch pieces hole) (punch pieces' hole') := by
  refine List.rel_append (List.rel_filter ?_ hpieces) (List.rel_flatMap (List.rel_filter ?_ hpieces) ?_)
  · intro piece piece' h
    simp only [h.overlaps_eq hX hY hhole]
  · intro piece piece' h
    simp only [h.overlaps_eq hX hY hhole]
  · intro piece piece' h
    exact h.minus hX hY hhole

theorem paired_dropEmpty (h : List.Forall₂ (Rect.Paired X Y) rects rects') :
    List.Forall₂ (Rect.Paired X Y) (dropEmpty rects) (dropEmpty rects') := by
  refine List.rel_filter ?_ h
  intro r r' h
  simp only [h.isEmpty_eq hX hY]

omit hX hY in
/-- The last rectangle moves to the front on either side. -/
theorem paired_fillGap {first first' : Rect} (h : List.Forall₂ (Rect.Paired X Y) rects rects') :
    List.Forall₂ (Rect.Paired X Y) (fillGap (first :: rects)) (fillGap (first' :: rects')) := by
  rw [← List.forall₂_reverse_iff] at h
  generalize hlist : rects.reverse = backwards, hlist' : rects'.reverse = backwards' at h
  rw [List.reverse_eq_iff] at hlist hlist'
  subst hlist hlist'
  cases h with
  | nil => exact .nil
  | cons hlast hfront => simpa [fillGap] using ⟨hlast, hfront⟩

/-- The same neighbours are absorbed, in the same order. -/
theorem paired_absorb {grown grown' : Rect} (hgrown : Rect.Paired X Y grown grown')
    (h : List.Forall₂ (Rect.Paired X Y) rects rects') :
    Rect.Paired X Y (absorb grown rects).1 (absorb grown' rects').1 ∧
      List.Forall₂ (Rect.Paired X Y) (absorb grown rects).2 (absorb grown' rects').2 := by
  fun_induction absorb grown rects generalizing grown' rects' with
  | case1 grown =>
    cases h
    rw [absorb]
    exact ⟨hgrown, .nil⟩
  | case2 grown r others joined hjoin ih =>
    cases h with
    | cons hr hothers =>
      have hjoined := hgrown.join? hX hY hr
      rw [hjoin] at hjoined
      generalize hjoin' : grown'.join? _ = result at hjoined
      cases hjoined with
      | some hjoined =>
        rw [absorb, hjoin']
        exact ih hjoined (paired_fillGap hothers)
  | case3 grown r others hjoin result =>
    rename_i ih
    cases h with
    | cons hr hothers =>
      have hapart := hgrown.join? hX hY hr
      rw [hjoin] at hapart
      generalize hjoin' : grown'.join? _ = result at hapart
      cases hapart with
      | none =>
        rw [absorb, hjoin']
        obtain ⟨hfst, hsnd⟩ := ih hgrown hothers
        exact ⟨hfst, .cons hr hsnd⟩

theorem paired_mergePass (h : List.Forall₂ (Rect.Paired X Y) rects rects') :
    List.Forall₂ (Rect.Paired X Y) (mergePass rects) (mergePass rects') := by
  fun_induction mergePass rects generalizing rects' with
  | case1 =>
    cases h
    rw [mergePass]
    exact .nil
  | case2 r rest ih =>
    cases h with
    | cons hr hrest =>
      rw [mergePass]
      obtain ⟨hfst, hsnd⟩ := paired_absorb hX hY hr hrest
      exact .cons hfst (ih hsnd)

/-- As many passes are made on either side: a pass is the last one if the list did not get shorter. -/
theorem paired_mergeAll (h : List.Forall₂ (Rect.Paired X Y) rects rects') :
    List.Forall₂ (Rect.Paired X Y) (mergeAll rects) (mergeAll rects') := by
  fun_induction mergeAll rects generalizing rects' with
  | case1 rects hshorter ih =>
    have hpass := paired_mergePass hX hY h
    rw [hpass.length_eq, h.length_eq] at hshorter
    rw [mergeAll_of_lt hshorter]
    exact ih hpass
  | case2 rects hlast =>
    have hpass := paired_mergePass hX hY h
    rw [hpass.length_eq, h.length_eq] at hlast
    rw [mergeAll_of_not_lt hlast]
    exact hpass

end

/-! ## Regions -/

/-- The rectangles of the two regions are paired, in order. -/
def Region.Paired (X Y : Coord → Coord → Prop) (r r' : Region) : Prop :=
  List.Forall₂ (Rect.Paired X Y) r.rects r'.rects

namespace Region.Paired

variable {r r' s s' : Region} {rect rect' : Rect}

section

variable (hX : Binary.KeepsOrder X) (hY : Binary.KeepsOrder Y)
include hX hY

theorem add (h : Paired X Y r r') (hrect : Rect.Paired X Y rect rect') :
    Paired X Y (r.add rect) (r'.add rect') := by
  have hnew := hrect.normalize hX hY
  simp only [Region.add, hnew.isEmpty_eq hX hY]
  split
  · exact h
  · have hpieces : List.Forall₂ (Rect.Paired X Y) (r.rects.foldl punch [rect.normalize])
        (r'.rects.foldl punch [rect'.normalize]) :=
      List.rel_foldl (R := Rect.Paired X Y) (fun _ _ hpieces _ _ hhole => paired_punch hX hY hpieces hhole)
        (.cons hnew .nil) h
    exact paired_mergeAll hX hY (paired_dropEmpty hX hY (List.rel_append h hpieces))

theorem remove (h : Paired X Y r r') (hrect : Rect.Paired X Y rect rect') :
    Paired X Y (r.remove rect) (r'.remove rect') := by
  have hhole := hrect.normalize hX hY
  simp only [Region.remove, hhole.isEmpty_eq hX hY]
  split
  · exact h
  · exact paired_dropEmpty hX hY (paired_punch hX hY h hhole)

theorem union (h : Paired X Y r r') (hs : Paired X Y s s') : Paired X Y (r.union s) (r'.union s') :=
  List.rel_foldl (P := Paired X Y) (R := Rect.Paired X Y) (fun _ _ h _ _ hrect => add hX hY h hrect) h hs

theorem diff (h : Paired X Y r r') (hs : Paired X Y s s') : Paired X Y (r.diff s) (r'.diff s') :=
  List.rel_foldl (P := Paired X Y) (R := Rect.Paired X Y) (fun _ _ h _ _ hrect => remove hX hY h hrect) h hs

theorem inter (h : Paired X Y r r') (hs : Paired X Y s s') : Paired X Y (r.inter s) (r'.inter s') := by
  refine List.rel_flatMap h ?_
  intro a a' ha
  refine paired_dropEmpty hX hY (List.rel_map ?_ hs)
  intro b b' hb
  exact ha.meet hX hY hb

end

end Region.Paired

/-! ## Shifts -/

namespace Binary

variable {fmt : Format} {a b d : Binary fmt}

/-- Whether a number is moved without being rounded. What is not a number stays that. -/
def movesExactly (a d : Binary fmt) : Bool := decide (a = nan) || a.addsExactly d

theorem movesExactly_iff : a.movesExactly d = true ↔ a = nan ∨ a.addsExactly d = true := by
  simp [movesExactly]

/-- Moving by zero is no move. -/
theorem add_zero_of_movesExactly (h : a.movesExactly 0 = true) : a + 0 = a := by
  cases a with
  | finite units =>
    have hsum : (finite units + finite 0 : Binary fmt) = finite (units + 0) := of_decide_eq_true h
    rwa [Int.add_zero] at hsum
  | _ => rfl

/-- Moving by the same amount, without rounding, keeps the order. -/
theorem keepsOrder_moves (d : Binary fmt) :
    KeepsOrder (fun a a' : Binary fmt => a.movesExactly d = true ∧ a + d = a') where
  nan_iff := by
    rintro a _ ⟨h, rfl⟩
    constructor
    · rintro rfl
      rfl
    · intro hnan
      rcases movesExactly_iff.mp h with h | h
      · exact h
      · exact absurd hnan (add_ne_nan_of_addsExactly h)
  lt_iff := by
    rintro a _ b _ ⟨ha, rfl⟩ ⟨hb, rfl⟩
    refine ⟨fun hlt => ?_, lt_of_add_lt_add⟩
    have ha := (movesExactly_iff.mp ha).resolve_left (ne_nan_of_lt_left hlt)
    have hb := (movesExactly_iff.mp hb).resolve_left (ne_nan_of_lt_right hlt)
    -- a number between the two is moved with them
    obtain ⟨x, hax, hbx⟩ := lt_iff_exists_between.mp hlt
    rw [← add_sub_cancel_right x d.value] at hax hbx
    exact lt_of_atMost_of_exceeds ((atMost_add ha).mpr hax) ((exceeds_add hb).mpr hbx)

end Binary

/-- No edge that is a number is rounded when the rectangle moves by the offset. -/
structure Rect.MovesExactly (r : Rect) (offset : Vec) : Prop where
  left : r.left.movesExactly offset.x = true
  top : r.top.movesExactly offset.y = true
  right : r.right.movesExactly offset.x = true
  bottom : r.bottom.movesExactly offset.y = true

instance (r : Rect) (offset : Vec) : Decidable (r.MovesExactly offset) :=
  decidable_of_iff (r.left.movesExactly offset.x = true ∧ r.top.movesExactly offset.y = true ∧
      r.right.movesExactly offset.x = true ∧ r.bottom.movesExactly offset.y = true)
    ⟨fun ⟨h1, h2, h3, h4⟩ => ⟨h1, h2, h3, h4⟩, fun ⟨h1, h2, h3, h4⟩ => ⟨h1, h2, h3, h4⟩⟩

namespace Region

variable {r r' s : Region} {offset : Vec}

/-- Each rectangle of the region moves by the offset without being rounded. -/
def MovesExactly (r : Region) (offset : Vec) : Prop := ∀ rect ∈ r.rects, rect.MovesExactly offset

instance (r : Region) (offset : Vec) : Decidable (r.MovesExactly offset) :=
  inferInstanceAs (Decidable (∀ rect ∈ r.rects, rect.MovesExactly offset))

/-- The second region is the first one moved, and nothing was rounded. -/
abbrev PairedBy (offset : Vec) : Region → Region → Prop :=
  Paired (fun a a' => a.movesExactly offset.x = true ∧ a + offset.x = a')
    (fun a a' => a.movesExactly offset.y = true ∧ a + offset.y = a')

theorem MovesExactly.pairedBy (h : r.MovesExactly offset) : PairedBy offset r (r.moved offset) := by
  refine List.forall₂_map_right_iff.mpr (List.forall₂_same.mpr fun rect hrect => ?_)
  obtain ⟨hleft, htop, hright, hbottom⟩ := h rect hrect
  exact ⟨⟨hleft, rfl⟩, ⟨htop, rfl⟩, ⟨hright, rfl⟩, ⟨hbottom, rfl⟩⟩

theorem PairedBy.eq_moved (h : PairedBy offset r r') : r.MovesExactly offset ∧ r.moved offset = r' := by
  have hrects : List.Forall₂ (fun rect rect' => rect.MovesExactly offset ∧ rect.shift offset = rect')
      r.rects r'.rects := by
    refine List.Forall₂.imp ?_ h
    rintro rect rect' ⟨⟨hleft, hleft'⟩, ⟨htop, htop'⟩, ⟨hright, hright'⟩, ⟨hbottom, hbottom'⟩⟩
    refine ⟨⟨hleft, htop, hright, hbottom⟩, ?_⟩
    rw [Rect.shift, hleft', htop', hright', hbottom']
  rw [List.forall₂_and_left, ← List.forall₂_map_left_iff, List.forall₂_eq_eq_eq] at hrects
  exact ⟨hrects.1, congrArg Region.mk hrects.2⟩

/-- Only the shift by zero leaves the additions out, and those would have changed nothing. -/
theorem MovesExactly.shift_eq_moved (h : r.MovesExactly offset) : r.shift offset = r.moved offset := by
  unfold Region.shift
  split
  · rename_i hzero
    simp only [Vec.agrees, Bool.and_eq_true] at hzero
    have hx : offset.x = 0 := Binary.eq_of_agrees hzero.1
    have hy : offset.y = 0 := Binary.eq_of_agrees hzero.2
    have hsame : ∀ rect ∈ r.rects, rect.shift offset = rect := by
      intro rect hrect
      obtain ⟨hleft, htop, hright, hbottom⟩ := h rect hrect
      rw [hx] at hleft hright
      rw [hy] at htop hbottom
      simp only [Rect.shift, hx, hy, Binary.add_zero_of_movesExactly hleft, Binary.add_zero_of_movesExactly htop,
        Binary.add_zero_of_movesExactly hright, Binary.add_zero_of_movesExactly hbottom]
    rw [moved, List.map_congr_left hsame, List.map_id']
  · rfl

/-- An operation that does the same to regions with their edges in the same order commutes with shifts. -/
theorem shift_op (op : Region → Region → Region)
    (hop : ∀ {r r' s s' : Region}, PairedBy offset r r' → PairedBy offset s s' →
      PairedBy offset (op r s) (op r' s'))
    (hr : r.MovesExactly offset) (hs : s.MovesExactly offset) :
    op (r.shift offset) (s.shift offset) = (op r s).shift offset := by
  obtain ⟨hmoves, hmoved⟩ := (hop hr.pairedBy hs.pairedBy).eq_moved
  rw [hr.shift_eq_moved, hs.shift_eq_moved, hmoves.shift_eq_moved, hmoved]

/-- **Regions may be moved before an operation or after it.** If nothing is rounded, an operation with an offset is the
operation with the moved region, and moving both regions first leaves what moving the result leaves: the same
rectangles in the same order. -/
theorem shift_commutes (r s : Region) (offset : Vec) (hs : s.MovesExactly offset) :
    (r.unionAt s offset = r.union (s.shift offset) ∧ r.diffAt s offset = r.diff (s.shift offset) ∧
      r.interAt s offset = r.inter (s.shift offset)) ∧
      (r.MovesExactly offset →
        (r.shift offset).union (s.shift offset) = (r.union s).shift offset ∧
          (r.shift offset).diff (s.shift offset) = (r.diff s).shift offset ∧
          (r.shift offset).inter (s.shift offset) = (r.inter s).shift offset) := by
  have hX := Binary.keepsOrder_moves offset.x
  have hY := Binary.keepsOrder_moves offset.y
  rw [hs.shift_eq_moved]
  refine ⟨⟨unionAt_eq_union_moved, diffAt_eq_diff_moved, interAt_eq_inter_moved⟩, fun hr => ?_⟩
  rw [← hs.shift_eq_moved]
  exact ⟨shift_op union (Paired.union hX hY) hr hs, shift_op diff (Paired.diff hX hY) hr hs,
    shift_op inter (Paired.inter hX hY) hr hs⟩

/-- A square, and below it a half plane with no end to the left. -/
def squareAndHalfPlane : Region :=
  ofRects [⟨0, 0, Binary.ofInt 4, Binary.ofInt 4⟩, ⟨.negInf, Binary.ofInt 8, Binary.ofInt 2, .posInf⟩]

/-- A strip that cuts both. -/
def downStrip : Region := ofRect ⟨1, Binary.ofInt 2, Binary.ofInt 3, Binary.ofInt 9⟩

theorem shift_commutes_downStrip :
    squareAndHalfPlane.MovesExactly ⟨Binary.ofInt 5, -1⟩ ∧ downStrip.MovesExactly ⟨Binary.ofInt 5, -1⟩ ∧
      squareAndHalfPlane.diffAt downStrip ⟨Binary.ofInt 5, -1⟩ =
        squareAndHalfPlane.diff (downStrip.shift ⟨Binary.ofInt 5, -1⟩) ∧
      (squareAndHalfPlane.shift ⟨Binary.ofInt 5, -1⟩).union (downStrip.shift ⟨Binary.ofInt 5, -1⟩) =
        (squareAndHalfPlane.union downStrip).shift ⟨Binary.ofInt 5, -1⟩ := by
  have hr : squareAndHalfPlane.MovesExactly ⟨Binary.ofInt 5, -1⟩ := by decide +kernel
  have hs : downStrip.MovesExactly ⟨Binary.ofInt 5, -1⟩ := by decide +kernel
  obtain ⟨hoffset, hmoved⟩ := shift_commutes squareAndHalfPlane downStrip ⟨Binary.ofInt 5, -1⟩ hs
  exact ⟨hr, hs, hoffset.2.1, (hmoved hr).1⟩

end Region

end Repaint
