import Repaint.Proofs.Region.Merged

/-!
# A hole that is filled again

A rectangle in which a hole is cut and filled again is one rectangle afterwards, wherever the hole lies and however much
of it there is (`Region.refill`).

* **the cut** — what a hole leaves of a rectangle lies around the part that the two share (`Rect.minus_eq_sides`): the
  bands above and below it, then the parts before and behind it, none of them where the hole reaches the edge;
* **one strip** — rectangles along a strip are joined where they meet (`Strip`), so that the passes make one of a middle
  part and those on both sides of it (`mergeAll_sides`). Other rectangles stay as they are in these passes as long as
  they cannot be joined with less than the whole strip;
* **two strips** — the bands are of this kind for the rows of the hole, which become one rectangle first. Then the bands
  are on both sides of it.
-/

namespace Repaint

/-! ## The part that is shared -/

/-- What lies along a strip on both sides of the part from `a` to `b`. -/
def sides (seg : Coord → Coord → Rect) (lo hi a b : Coord) : List Rect :=
  (if lo < a then [seg lo a] else []) ++ (if b < hi then [seg b hi] else [])

namespace Rect

variable {outer hole : Rect}

/-- The part of some rows between two columns. -/
def inRows (top bottom lo hi : Coord) : Rect := ⟨lo, top, hi, bottom⟩

/-- The part of some columns between two rows. -/
def inColumns (left right lo hi : Coord) : Rect := ⟨left, lo, right, hi⟩

theorem meet_comm (a b : Rect) : a.meet b = b.meet a := by
  simp only [Rect.meet, Binary.max_comm a.left, Binary.max_comm a.top, Binary.min_comm a.right,
    Binary.min_comm a.bottom]

theorem overlaps_comm (a b : Rect) : a.overlaps b = b.overlaps a := by
  simp only [overlaps, Binary.max_comm a.left, Binary.max_comm a.top, Binary.min_comm a.right,
    Binary.min_comm a.bottom]

/-- The sides of a hole in a strip are those of the part that is shared. -/
theorem sides_shared {start stop lo hi : Coord} (seg : Coord → Coord → Rect) (hlo : lo ≠ .nan) (hhi : hi ≠ .nan)
    (h : max start lo < min stop hi) :
    (if lo < start then [seg lo (min start hi)] else []) ++ (if stop < hi then [seg (max stop lo) hi] else []) =
      sides seg lo hi (max start lo) (min stop hi) := by
  simp only [sides, Binary.lt_max_self_iff hlo, Binary.min_lt_self_iff hhi]
  have hbefore (hlt : lo < start) : min start hi = max start lo := by
    have hstart : max start lo = start := by rw [Binary.max_comm, Binary.max_of_le (Binary.le_of_lt hlt)]
    rw [hstart] at h ⊢
    exact Binary.min_of_le (Binary.le_of_lt (Binary.lt_of_lt_of_le h (Binary.min_le_right hhi)))
  have hbehind (hlt : stop < hi) : max stop lo = min stop hi := by
    have hstop : min stop hi = stop := Binary.min_of_le (Binary.le_of_lt hlt)
    rw [hstop] at h ⊢
    rw [Binary.max_comm]
    exact Binary.max_of_le (Binary.le_of_lt (Binary.lt_of_le_of_lt (Binary.le_max_right hlo) h))
  congr 1
  · split
    · rw [hbefore ‹_›]
    · rfl
  · split
    · rw [hbehind ‹_›]
    · rfl

/-- What two overlapping rectangles share ends with the one of them that ends first. -/
theorem meet_of_overlaps (h : hole.overlaps outer = true) :
    hole.meet outer = ⟨max hole.left outer.left, max hole.top outer.top, min hole.right outer.right,
      min hole.bottom outer.bottom⟩ := by
  simp only [overlaps, Bool.and_eq_true, decide_eq_true_eq] at h
  simp only [Rect.meet, Binary.max_comm (min _ _), Binary.max_of_le (Binary.le_of_lt h.1),
    Binary.max_of_le (Binary.le_of_lt h.2)]

/-- The parts that a hole leaves lie around what it shares with the rectangle: first those above and below it, then
those before and behind it. -/
theorem minus_eq_sides {inner : Rect} (houter : outer.Numeric) (h : hole.overlaps outer = true)
    (hinner : hole.meet outer = inner) : outer.minus hole =
      sides (inColumns outer.left outer.right) outer.top outer.bottom inner.top inner.bottom ++
        sides (inRows inner.top inner.bottom) outer.left outer.right inner.left inner.right := by
  rw [meet_of_overlaps h] at hinner
  subst hinner
  simp only [overlaps, Bool.and_eq_true, decide_eq_true_eq] at h
  rw [← sides_shared _ houter.left houter.right h.1, ← sides_shared _ houter.top houter.bottom h.2]
  simp only [Rect.minus, inRows, inColumns, Binary.max_comm outer.top, Binary.min_comm outer.bottom, if_pos h.2]

end Rect

/-! ## One strip -/

/-- Rectangles along a strip: they have area, are one where they meet, and cannot be joined where they do not. -/
structure Strip (seg : Coord → Coord → Rect) : Prop where
  solid : ∀ {a b}, a < b → (seg a b).isEmpty = false
  join : ∀ {a b c}, a < b → b < c → (seg a b).join? (seg b c) = some (seg a c)
  gap : ∀ {a b c d}, a < b → b < c → c < d → (seg a b).join? (seg c d) = none

namespace Strip

variable {seg : Coord → Coord → Rect} {a b c d top bottom left right : Coord}

theorem join' (h : Strip seg) (hab : a < b) (hbc : b < c) : (seg b c).join? (seg a b) = some (seg a c) := by
  rw [Rect.join?_comm (Rect.numeric_of_isEmpty_eq_false (h.solid hbc)) (Rect.numeric_of_isEmpty_eq_false (h.solid hab))]
  exact h.join hab hbc

/-- Stretches with a gap between them neither begin together nor meet. -/
theorem ends_apart (hab : a < b) (hbc : b < c) (hcd : c < d) : a ≠ c ∧ ¬ (b = c ∨ d = a) := by
  have hac : a < c := Binary.lt_trans hab hbc
  refine ⟨Binary.ne_of_lt hac, ?_⟩
  rintro (rfl | rfl)
  · exact Binary.ne_of_lt hbc rfl
  · exact Binary.not_lt_of_lt hac hcd

theorem inRows (h : top < bottom) : Strip (Rect.inRows top bottom) := by
  have hsolid {a b : Coord} (hab : a < b) : (Rect.inRows top bottom a b).isEmpty = false :=
    Rect.isEmpty_eq_false_iff.mpr ⟨hab, h⟩
  have hnumeric {a b : Coord} (hab : a < b) := Rect.numeric_of_isEmpty_eq_false (hsolid hab)
  refine ⟨hsolid, fun hab hbc => ?_, fun hab hbc hcd => ?_⟩
  · rw [Rect.join?_eq_ite (hnumeric hab) (hnumeric hbc), if_pos ⟨⟨rfl, rfl⟩, Or.inl rfl⟩]
    simp only [Rect.inRows, Binary.min_of_le (Binary.le_of_lt hab), Binary.max_of_le (Binary.le_of_lt hbc)]
  · obtain ⟨hcolumns, hmeet⟩ := ends_apart hab hbc hcd
    exact (Rect.join?_eq_none_iff (hnumeric hab) (hnumeric hcd)).mpr
      ⟨fun hrow => hmeet hrow.2, fun hcolumn => hcolumns hcolumn.1.1⟩

theorem inColumns (h : left < right) : Strip (Rect.inColumns left right) := by
  have hsolid {a b : Coord} (hab : a < b) : (Rect.inColumns left right a b).isEmpty = false :=
    Rect.isEmpty_eq_false_iff.mpr ⟨h, hab⟩
  have hnumeric {a b : Coord} (hab : a < b) := Rect.numeric_of_isEmpty_eq_false (hsolid hab)
  refine ⟨hsolid, fun {a b c} hab hbc => ?_, fun hab hbc hcd => ?_⟩
  · have hrows : a ≠ b := Binary.ne_of_lt hab
    rw [Rect.join?_eq_ite (hnumeric hab) (hnumeric hbc), if_neg fun hrow => hrows hrow.1.1,
      if_pos ⟨⟨rfl, rfl⟩, Or.inl rfl⟩]
    simp only [Rect.inColumns, Binary.min_of_le (Binary.le_of_lt hab), Binary.max_of_le (Binary.le_of_lt hbc)]
  · obtain ⟨hrows, hmeet⟩ := ends_apart hab hbc hcd
    exact (Rect.join?_eq_none_iff (hnumeric hab) (hnumeric hcd)).mpr
      ⟨fun hrow => hrows hrow.1.1, fun hcolumn => hmeet hcolumn.2⟩

end Strip

/-! ### Passes -/

section Passes

variable {first middle last joined : Rect} {fixed rest : List Rect}

/-- A rectangle that can be joined with none of the others leaves them as they are. -/
theorem absorb_of_forall {grown : Rect} (h : ∀ r ∈ rest, grown.join? r = none) : absorb grown rest = (grown, rest) := by
  induction rest with
  | nil => rw [absorb]
  | cons r others ih =>
    obtain ⟨hr, hothers⟩ := List.forall_mem_cons.mp h
    rw [absorb, hr]
    simp only [ih hothers]

/-- Rectangles that can be joined with none of those behind them stay as they are in a pass. -/
theorem mergePass_append (hfixed : fixed.Pairwise (fun a b => a.join? b = none))
    (hrest : ∀ a ∈ fixed, ∀ r ∈ rest, a.join? r = none) : mergePass (fixed ++ rest) = fixed ++ mergePass rest := by
  induction fixed with
  | nil => rfl
  | cons a others ih =>
    obtain ⟨ha, hothers⟩ := List.pairwise_cons.mp hfixed
    obtain ⟨har, hrest⟩ := List.forall_mem_cons.mp hrest
    have habsorb : absorb a (others ++ rest) = (a, others ++ rest) :=
      absorb_of_forall (List.forall_mem_append.mpr ⟨ha, har⟩)
    rw [List.cons_append, mergePass, habsorb, ih hothers hrest, List.cons_append]

/-- A pass that makes the others fewer may be made first. -/
theorem mergeAll_append (hfixed : fixed.Pairwise (fun a b => a.join? b = none))
    (hrest : ∀ a ∈ fixed, ∀ r ∈ rest, a.join? r = none) (hshorter : (mergePass rest).length < rest.length) :
    mergeAll (fixed ++ rest) = mergeAll (fixed ++ mergePass rest) := by
  have hpass := mergePass_append hfixed hrest
  have hlt : (mergePass (fixed ++ rest)).length < (fixed ++ rest).length := by
    rw [hpass, List.length_append, List.length_append]
    omega
  rw [mergeAll_of_lt hlt, hpass]

theorem mergePass_singleton (r : Rect) : mergePass [r] = [r] := by
  rw [mergePass, absorb, mergePass]

theorem mergeAll_singleton (r : Rect) : mergeAll [r] = [r] := by
  have hpass := mergePass_singleton r
  rw [mergeAll_of_not_lt (by rw [hpass]; exact Nat.lt_irrefl _), hpass]

theorem mergeAll_pair (hfixed : fixed.Pairwise (fun a b => a.join? b = none))
    (hrest : ∀ a ∈ fixed, a.join? first = none ∧ a.join? last = none) (h : first.join? last = some joined) :
    mergeAll (fixed ++ [first, last]) = mergeAll (fixed ++ [joined]) := by
  have hpass : mergePass [first, last] = [joined] := by
    have habsorb : absorb first [last] = (joined, []) := by
      rw [absorb, h]
      exact absorb_of_forall (List.forall_mem_nil _)
    rw [mergePass, habsorb, mergePass]
  rw [mergeAll_append hfixed (fun a ha => by simpa using hrest a ha) (by simp [hpass]), hpass]

/-- What cannot be joined yet is passed over, and the rectangle behind it absorbed. -/
theorem mergeAll_triple (hfixed : fixed.Pairwise (fun a b => a.join? b = none))
    (hrest : ∀ a ∈ fixed, a.join? first = none ∧ a.join? last = none ∧ a.join? middle = none)
    (hgap : first.join? last = none) (h : first.join? middle = some joined) :
    mergeAll (fixed ++ [first, last, middle]) = mergeAll (fixed ++ [joined, last]) := by
  have hpass : mergePass [first, last, middle] = [joined, last] := by
    have hmiddle : absorb first [middle] = (joined, []) := by
      rw [absorb, h]
      exact absorb_of_forall (List.forall_mem_nil _)
    have habsorb : absorb first [last, middle] = (joined, [last]) := by
      rw [absorb, hgap]
      simp only [hmiddle]
    rw [mergePass, habsorb, mergePass_singleton]
  rw [mergeAll_append hfixed (fun a ha => by simpa using hrest a ha) (by simp [hpass]), hpass]

end Passes

/-- The middle of a strip and its sides become one, as long as the other rectangles cannot be joined with less than all
of the strip. -/
theorem mergeAll_sides {seg : Coord → Coord → Rect} {lo hi a b : Coord} {fixed : List Rect} (hseg : Strip seg)
    (hlo : lo ≤ a) (hab : a < b) (hhi : b ≤ hi) (hfixed : fixed.Pairwise (fun r s => r.join? s = none))
    (hpart : ∀ r ∈ fixed, ∀ {x y}, x < y → lo < x ∨ y < hi → r.join? (seg x y) = none) :
    mergeAll (fixed ++ (sides seg lo hi a b ++ [seg a b])) = mergeAll (fixed ++ [seg lo hi]) := by
  rcases Binary.le_def.mp hlo with hbefore | hbefore
  · rcases Binary.le_def.mp hhi with hbehind | hbehind
    · -- the first pass joins the middle with what lies before it, the second one with what lies behind
      have hstart : lo < b := Binary.lt_trans hbefore hab
      have hend : a < hi := Binary.lt_trans hab hbehind
      have hsides : sides seg lo hi a b = [seg lo a, seg b hi] := by
        rw [sides, if_pos hbefore, if_pos hbehind, List.singleton_append]
      rw [hsides]
      refine (mergeAll_triple hfixed (fun r hr => ?_) (hseg.gap hbefore hab hbehind) (hseg.join hbefore hab)).trans
        (mergeAll_pair hfixed (fun r hr => ?_) (hseg.join hstart hbehind))
      · exact ⟨hpart r hr hbefore (Or.inr hend), hpart r hr hbehind (Or.inl hstart), hpart r hr hab (Or.inl hbefore)⟩
      · exact ⟨hpart r hr hstart (Or.inr hbehind), hpart r hr hbehind (Or.inl hstart)⟩
    · obtain rfl := Binary.eq_of_agrees hbehind
      have hsides : sides seg lo b a b = [seg lo a] := by
        rw [sides, if_pos hbefore, if_neg (Binary.lt_irrefl _), List.append_nil]
      rw [hsides]
      refine mergeAll_pair hfixed (fun r hr => ?_) (hseg.join hbefore hab)
      exact ⟨hpart r hr hbefore (Or.inr hab), hpart r hr hab (Or.inl hbefore)⟩
  · obtain rfl := Binary.eq_of_agrees hbefore
    rcases Binary.le_def.mp hhi with hbehind | hbehind
    · have hsides : sides seg lo hi lo b = [seg b hi] := by
        rw [sides, if_neg (Binary.lt_irrefl _), if_pos hbehind, List.nil_append]
      rw [hsides]
      refine mergeAll_pair hfixed (fun r hr => ?_) (hseg.join' hab hbehind)
      exact ⟨hpart r hr hbehind (Or.inl hab), hpart r hr hab (Or.inr hbehind)⟩
    · obtain rfl := Binary.eq_of_agrees hbehind
      rw [sides, if_neg (Binary.lt_irrefl _), if_neg (Binary.lt_irrefl _), List.nil_append, List.nil_append]

/-! ## Two strips -/

section Sides

variable {seg : Coord → Coord → Rect} {lo hi a b : Coord} {r : Rect}

theorem mem_sides : r ∈ sides seg lo hi a b ↔ (lo < a ∧ r = seg lo a) ∨ (b < hi ∧ r = seg b hi) := by
  simp [sides]

theorem pairwise_sides (hseg : Strip seg) (hab : a < b) :
    (sides seg lo hi a b).Pairwise (fun r s => r.join? s = none) := by
  refine List.pairwise_append.mpr ⟨?_, ?_, ?_⟩
  · split <;> simp
  · split <;> simp
  · simp only [List.mem_ite_nil_right, List.mem_singleton]
    rintro _ ⟨hbefore, rfl⟩ _ ⟨hbehind, rfl⟩
    exact hseg.gap hbefore hab hbehind

end Sides

namespace Rect

variable {outer hole inner : Rect}

/-- A band that does not begin where the rows begin cannot be joined with a part of them that leaves a column out. -/
theorem join?_inColumns_inRows {left right top bottom lo hi x y : Coord} (hcolumns : left < right)
    (hrows : top < bottom) (hlohi : lo < hi) (hxy : x < y) (hlo : lo ≠ top) (hpart : left < x ∨ y < right) :
    (inColumns left right lo hi).join? (inRows top bottom x y) = none := by
  have hband : (inColumns left right lo hi).isEmpty = false := isEmpty_eq_false_iff.mpr ⟨hcolumns, hlohi⟩
  have hrow : (inRows top bottom x y).isEmpty = false := isEmpty_eq_false_iff.mpr ⟨hxy, hrows⟩
  refine (join?_eq_none_iff (numeric_of_isEmpty_eq_false hband) (numeric_of_isEmpty_eq_false hrow)).mpr
    ⟨fun h => hlo h.1.1, fun h => ?_⟩
  obtain ⟨⟨hleft, hright⟩, _⟩ := h
  rcases hpart with hlt | hlt
  · exact Binary.ne_of_lt hlt hleft
  · exact Binary.ne_of_lt hlt hright.symm

/-- What two overlapping rectangles share lies within the second one, and has area. -/
theorem within_of_overlaps (houter : outer.Numeric) (h : hole.overlaps outer = true)
    (hinner : hole.meet outer = inner) :
    (outer.left ≤ inner.left ∧ inner.left < inner.right ∧ inner.right ≤ outer.right) ∧
      outer.top ≤ inner.top ∧ inner.top < inner.bottom ∧ inner.bottom ≤ outer.bottom := by
  rw [meet_of_overlaps h] at hinner
  subst hinner
  simp only [overlaps, Bool.and_eq_true, decide_eq_true_eq] at h
  exact ⟨⟨Binary.le_max_right houter.left, h.1, Binary.min_le_right houter.right⟩,
    Binary.le_max_right houter.top, h.2, Binary.min_le_right houter.bottom⟩

/-- The parts that a hole leaves have area. -/
theorem solid_minus (houter : outer.isEmpty = false) (h : hole.overlaps outer = true) :
    ∀ part ∈ outer.minus hole, part.isEmpty = false := by
  have hnumeric := numeric_of_isEmpty_eq_false houter
  obtain ⟨⟨_, _, _⟩, _, hrows, _⟩ := within_of_overlaps hnumeric h rfl
  obtain ⟨hcolumns, _⟩ := isEmpty_eq_false_iff.mp houter
  intro part hpart
  rw [minus_eq_sides hnumeric h rfl, List.mem_append, mem_sides, mem_sides] at hpart
  rcases hpart with (⟨hlt, rfl⟩ | ⟨hlt, rfl⟩) | ⟨hlt, rfl⟩ | ⟨hlt, rfl⟩
  · exact (Strip.inColumns hcolumns).solid hlt
  · exact (Strip.inColumns hcolumns).solid hlt
  · exact (Strip.inRows hrows).solid hlt
  · exact (Strip.inRows hrows).solid hlt

/-- The parts that a hole leaves, and then what it took, are merged to the rectangle that was there before. -/
theorem mergeAll_minus (houter : outer.isEmpty = false) (h : hole.overlaps outer = true) :
    mergeAll (outer.minus hole ++ [hole.meet outer]) = [outer] := by
  generalize hinner : hole.meet outer = inner
  have hnumeric := numeric_of_isEmpty_eq_false houter
  obtain ⟨⟨hleft, hwidth, hright⟩, htop, hheight, hbottom⟩ := within_of_overlaps hnumeric h hinner
  obtain ⟨hcolumns, _⟩ := isEmpty_eq_false_iff.mp houter
  have hdown := Strip.inColumns hcolumns
  have hband : ∀ r ∈ sides (inColumns outer.left outer.right) outer.top outer.bottom inner.top inner.bottom,
      ∀ {x y}, x < y → outer.left < x ∨ y < outer.right → r.join? (inRows inner.top inner.bottom x y) = none := by
    intro r hr x y hxy hpart
    rcases mem_sides.mp hr with ⟨habove, rfl⟩ | ⟨hbelow, rfl⟩
    · exact join?_inColumns_inRows hcolumns hheight habove hxy (Binary.ne_of_lt habove) hpart
    · exact join?_inColumns_inRows hcolumns hheight hbelow hxy (Binary.ne_of_lt hheight).symm hpart
  rw [minus_eq_sides hnumeric h hinner, List.append_assoc]
  calc mergeAll (sides (inColumns outer.left outer.right) outer.top outer.bottom inner.top inner.bottom ++
        (sides (inRows inner.top inner.bottom) outer.left outer.right inner.left inner.right ++ [inner]))
    _ = mergeAll (sides (inColumns outer.left outer.right) outer.top outer.bottom inner.top inner.bottom ++
        [inColumns outer.left outer.right inner.top inner.bottom]) :=
      mergeAll_sides (Strip.inRows hheight) hleft hwidth hright (pairwise_sides hdown hheight) hband
    _ = mergeAll [outer] :=
      mergeAll_sides hdown htop hheight hbottom List.Pairwise.nil fun r hr => absurd hr List.not_mem_nil
    _ = [outer] := mergeAll_singleton outer

end Rect

/-! ## Regions -/

theorem foldl_punch_of_forall {pieces rects : List Rect}
    (hmiss : ∀ r ∈ rects, ∀ piece ∈ pieces, piece.overlaps r = false) : rects.foldl punch pieces = pieces := by
  induction rects with
  | nil => rfl
  | cons r rest ih =>
    obtain ⟨hr, hrest⟩ := List.forall_mem_cons.mp hmiss
    rw [List.foldl_cons, punch_of_forall hr, ih hrest]

namespace Region

variable {r : Region} {rect outer hole : Rect}

/-- Nothing is left of a rectangle that the region covers already. -/
theorem pieces_of_covers (h : r.Solid) (hrect : rect.normalize.isEmpty = false)
    (hcov : ∀ p, rect.normalize.covers p → r.covers p) : r.pieces rect = r.rects := by
  have hnew : ∀ piece ∈ [rect.normalize], piece.Numeric := by
    simpa using Rect.numeric_of_isEmpty_eq_false hrect
  have hnone : dropEmpty (r.rects.foldl punch [rect.normalize]) = [] := by
    refine List.eq_nil_iff_forall_not_mem.mpr fun piece hpiece => ?_
    obtain ⟨p, hp⟩ := Rect.isEmpty_eq_false_iff_exists.mp (isEmpty_of_mem_dropEmpty hpiece)
    have hleft := (coversAny_foldl_punch hnew h.numeric).mp ⟨piece, (List.mem_filter.mp hpiece).1, hp⟩
    exact hleft.2 (hcov p (by simpa using hleft.1))
  have hold : dropEmpty r.rects = r.rects := dropEmpty_of_forall h
  unfold pieces
  unfold dropEmpty at hnone hold ⊢
  rw [List.filter_append, hold, hnone, List.append_nil]

/-- A rectangle that the region misses is all left. -/
theorem pieces_of_apart (h : r.Solid) (hrect : rect.normalize.isEmpty = false)
    (hapart : ∀ p, rect.normalize.covers p → ¬ r.covers p) : r.pieces rect = r.rects ++ [rect.normalize] := by
  have hnumeric := Rect.numeric_of_isEmpty_eq_false hrect
  have hmiss : ∀ old ∈ r.rects, ∀ piece ∈ [rect.normalize], piece.overlaps old = false := by
    intro old hold piece hpiece
    rw [List.mem_singleton] at hpiece
    subst hpiece
    rw [← Bool.not_eq_true, Rect.overlaps_iff hnumeric (h.numeric old hold)]
    rintro ⟨p, hp, hp'⟩
    exact hapart p hp ⟨old, hold, hp'⟩
  rw [pieces, foldl_punch_of_forall hmiss]
  refine dropEmpty_of_forall (List.forall_mem_append.mpr ⟨h, ?_⟩)
  simpa using hrect

theorem rects_ofRect (h : rect.isEmpty = false) : (ofRect rect).rects = [rect] := by
  have hsame := Rect.normalize_eq_self h
  have harea : rect.normalize.isEmpty = false := by rwa [hsame]
  have hpieces : empty.pieces rect = [rect] := by
    rw [pieces_of_apart solid_empty harea fun p _ => not_covers_empty, hsame]
    rfl
  rw [ofRect, add_eq_mergeAll harea, hpieces, mergeAll_singleton]

theorem rects_remove (houter : outer.isEmpty = false) (hhole : hole.Numeric) (h : hole.overlaps outer = true) :
    ((ofRect outer).remove hole).rects = outer.minus hole := by
  have hover : outer.overlaps hole = true := by rwa [Rect.overlaps_comm]
  have harea : hole.isEmpty = false := Rect.isEmpty_of_overlaps hhole hover
  have hcut : punch [outer] hole = outer.minus hole := by simp [punch, hover]
  have hsame := Rect.normalize_eq_self harea
  rw [remove_eq_punch (by rwa [hsame]), hsame, rects_ofRect houter, hcut]
  exact dropEmpty_of_forall (Rect.solid_minus houter h)

/-- The hole is filled again, if its edges are numbers. -/
theorem refill_of_numeric (houter : outer.isEmpty = false) (hhole : hole.Numeric) (h : hole.overlaps outer = true) :
    (((ofRect outer).remove hole).add (hole.meet outer)).rects = [outer] := by
  have hnumeric := Rect.numeric_of_isEmpty_eq_false houter
  have harea : (hole.meet outer).isEmpty = false := (Rect.overlaps_iff_meet hnumeric).mp h
  have hsame := Rect.normalize_eq_self harea
  have hrects := rects_remove houter hhole h
  have hpieces : ((ofRect outer).remove hole).pieces (hole.meet outer) = outer.minus hole ++ [hole.meet outer] := by
    rw [pieces_of_apart (solid_ofRect outer).remove (by rwa [hsame]), hsame, hrects]
    rw [hsame]
    intro p hp hp'
    unfold covers at hp'
    rw [hrects] at hp'
    exact ((Rect.covers_minus hnumeric hhole).mp hp').2 ((Rect.covers_meet hhole hnumeric).mp hp).1
  rw [add_eq_mergeAll (by rwa [hsame]), hpieces]
  exact Rect.mergeAll_minus houter h

/-- A hole with an edge that is not a number is not cut, so nothing is left of what is filled in. -/
theorem refill_of_not_numeric (houter : outer.isEmpty = false) (hhole : ¬ hole.Numeric)
    (h : hole.overlaps outer = true) :
    (((ofRect outer).remove hole).add (hole.meet outer)).rects = [outer] := by
  have hnumeric := Rect.numeric_of_isEmpty_eq_false houter
  have hremove : (ofRect outer).remove hole = ofRect outer := by
    have hempty : hole.normalize.isEmpty = true := by
      by_contra harea
      exact hhole (Rect.numeric_of_isEmpty_normalize (Bool.eq_false_iff.mpr harea))
    exact remove_of_isEmpty hempty
  have harea : (hole.meet outer).isEmpty = false := (Rect.overlaps_iff_meet hnumeric).mp h
  have hsame := Rect.normalize_eq_self harea
  have hpieces : (ofRect outer).pieces (hole.meet outer) = [outer] := by
    rw [pieces_of_covers (solid_ofRect outer) (by rwa [hsame]), rects_ofRect houter]
    intro p hp
    rw [hsame, Rect.meet_comm] at hp
    rw [covers_ofRect]
    exact (Rect.covers_of_covers_meet hnumeric hp).normalize
  rw [hremove, add_eq_mergeAll (by rwa [hsame]), hpieces, mergeAll_singleton]

/-- **A hole that is filled again leaves no trace.** A rectangle with area, from which any rectangle that overlaps it is
removed and to which the part shared with it is added again, is the one rectangle that it was: whether the hole lies
inside, across an edge or a corner, reaches from edge to edge or takes all of it, and even where its edges are no
numbers. It is the same with a hole whose corners are given in any order, as long as it has a point of the rectangle. -/
theorem refill (outer hole : Rect) (houter : outer.isEmpty = false) :
    (hole.overlaps outer = true → (((ofRect outer).remove hole).add (hole.meet outer)).rects = [outer]) ∧
      ((hole.points ∩ outer.points).Nonempty →
        (((ofRect outer).remove hole).add (hole.normalize.meet outer)).rects = [outer]) := by
  constructor
  · intro hover
    by_cases hhole : hole.Numeric
    · exact refill_of_numeric houter hhole hover
    · exact refill_of_not_numeric houter hhole hover
  · rintro ⟨p, hp, hp'⟩
    have hp : hole.normalize.covers p := hp
    have hp' : outer.covers p := by
      rw [← Rect.normalize_eq_self houter]
      exact hp'
    have hover : hole.normalize.overlaps outer = true := (Rect.overlaps_iff hp.numeric hp'.numeric).mpr ⟨p, hp, hp'⟩
    have hremove : (ofRect outer).remove hole = (ofRect outer).remove hole.normalize := by
      simp only [remove, Rect.normalize_normalize]
    rw [hremove]
    exact refill_of_numeric houter hp.numeric hover

/-- A hole across a corner of a square, and one without end across its middle that is given from right to left. -/
theorem refill_square :
    (⟨0, 0, Binary.ofInt 3, Binary.ofInt 3⟩ : Rect).isEmpty = false ∧
      (⟨-1, -1, 1, 1⟩ : Rect).overlaps ⟨0, 0, Binary.ofInt 3, Binary.ofInt 3⟩ = true ∧
      ((⟨Binary.ofInt 2, .negInf, 1, .posInf⟩ : Rect).points ∩
        (⟨0, 0, Binary.ofInt 3, Binary.ofInt 3⟩ : Rect).points).Nonempty ∧
      (((ofRect ⟨0, 0, Binary.ofInt 3, Binary.ofInt 3⟩).remove ⟨-1, -1, 1, 1⟩).add ⟨0, 0, 1, 1⟩).rects =
        [⟨0, 0, Binary.ofInt 3, Binary.ofInt 3⟩] ∧
      (((ofRect ⟨0, 0, Binary.ofInt 3, Binary.ofInt 3⟩).remove ⟨Binary.ofInt 2, .negInf, 1, .posInf⟩).add
        ⟨1, 0, Binary.ofInt 2, Binary.ofInt 3⟩).rects = [⟨0, 0, Binary.ofInt 3, Binary.ofInt 3⟩] := by
  have houter : (⟨0, 0, Binary.ofInt 3, Binary.ofInt 3⟩ : Rect).isEmpty = false := by decide +kernel
  have hcorner : (⟨-1, -1, 1, 1⟩ : Rect).overlaps ⟨0, 0, Binary.ofInt 3, Binary.ofInt 3⟩ = true := by decide +kernel
  have hshared : ((⟨Binary.ofInt 2, .negInf, 1, .posInf⟩ : Rect).points ∩
      (⟨0, 0, Binary.ofInt 3, Binary.ofInt 3⟩ : Rect).points).Nonempty := by
    have hover : (⟨Binary.ofInt 2, .negInf, 1, .posInf⟩ : Rect).normalize.overlaps
        (⟨0, 0, Binary.ofInt 3, Binary.ofInt 3⟩ : Rect).normalize = true := by decide +kernel
    exact (Rect.overlaps_iff (by decide +kernel) (by decide +kernel)).mp hover
  have hcornerPart : (⟨-1, -1, 1, 1⟩ : Rect).meet ⟨0, 0, Binary.ofInt 3, Binary.ofInt 3⟩ = ⟨0, 0, 1, 1⟩ := by
    decide +kernel
  have hmiddlePart : (⟨Binary.ofInt 2, .negInf, 1, .posInf⟩ : Rect).normalize.meet
      ⟨0, 0, Binary.ofInt 3, Binary.ofInt 3⟩ = ⟨1, 0, Binary.ofInt 2, Binary.ofInt 3⟩ := by decide +kernel
  refine ⟨houter, hcorner, hshared, ?_, ?_⟩
  · rw [← hcornerPart]
    exact (refill _ _ houter).1 hcorner
  · rw [← hmiddlePart]
    exact (refill _ _ houter).2 hshared

end Region

end Repaint
