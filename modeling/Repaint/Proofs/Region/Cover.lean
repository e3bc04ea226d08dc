import Repaint.Region.Basic
import Repaint.Proofs.Rect

/-!
# Regions as sets of points

A region covers the points that one of its rectangles covers. Every operation on regions is the operation on
sets of points that it is named for:

* **one rectangle** — `Region.covers_add`, `Region.covers_remove`, `Region.covers_clip`;
* **two regions** — `Region.covers_union`, `Region.covers_diff`, `Region.covers_inter` and the same with an
  offset, `Region.covers_unionAt`, `Region.covers_diffAt`, `Region.covers_interAt`;
* **questions** — `Region.touches_iff`, `Region.isEmpty_iff`.

The lists of rectangles behind them are changed piece by piece. Punching holes is exact as long as no edge is
not-a-number (`Region.Numeric`); merging is exact on rectangles with area (`Region.Solid`), and every
operation that merges drops the others before.
-/

namespace Repaint

/-- One of the rectangles covers the point. -/
def coversAny (rects : List Rect) (p : Point) : Prop := ∃ r ∈ rects, r.covers p

variable {rects pieces : List Rect} {p : Point}

@[simp] theorem coversAny_nil : ¬ coversAny [] p := by
  rintro ⟨r, hr, _⟩
  cases hr

@[simp] theorem coversAny_cons {r : Rect} :
    coversAny (r :: rects) p ↔ r.covers p ∨ coversAny rects p := by
  simp [coversAny]

@[simp] theorem coversAny_append {others : List Rect} :
    coversAny (rects ++ others) p ↔ coversAny rects p ∨ coversAny others p := by
  simp [coversAny, or_and_right, exists_or]

/-! ## Clipping -/

/-- Punching a hole loses no point outside it. -/
theorem coversAny_punch_of {hole : Rect} (hhole : hole.Numeric) (hp : coversAny pieces p) (hout : ¬ hole.covers p) :
    coversAny (punch pieces hole) p := by
  obtain ⟨piece, hpiece, hcov⟩ := hp
  cases hover : piece.overlaps hole with
  | false =>
    refine ⟨piece, ?_, hcov⟩
    simp [punch, hpiece, hover]
  | true =>
    obtain ⟨r, hr, hp⟩ := (Rect.covers_minus hcov.numeric hhole).mpr ⟨hcov, hout⟩
    refine ⟨r, ?_, hp⟩
    simp only [punch, List.mem_append, List.mem_flatMap, List.mem_filter]
    exact Or.inr ⟨piece, ⟨hpiece, hover⟩, hr⟩

/-- Punching a hole leaves the points outside it. -/
theorem coversAny_punch {hole : Rect} (hpieces : ∀ r ∈ pieces, r.Numeric) (hhole : hole.Numeric) :
    coversAny (punch pieces hole) p ↔ coversAny pieces p ∧ ¬ hole.covers p := by
  constructor
  · rintro ⟨r, hr, hp⟩
    simp only [punch, List.mem_append, List.mem_filter, List.mem_flatMap] at hr
    rcases hr with ⟨hr, hmiss⟩ | ⟨piece, ⟨hpiece, _⟩, hr⟩
    · refine ⟨⟨r, hr, hp⟩, fun hcov => ?_⟩
      have : r.overlaps hole = true :=
        (Rect.overlaps_iff (hpieces r hr) hhole).mpr ⟨p, hp, hcov⟩
      rw [this] at hmiss
      cases hmiss
    · obtain ⟨hcov, hout⟩ := (Rect.covers_minus (hpieces piece hpiece) hhole).mp ⟨r, hr, hp⟩
      exact ⟨⟨piece, hpiece, hcov⟩, hout⟩
  · rintro ⟨hp, hout⟩
    exact coversAny_punch_of hhole hp hout

/-- A hole that every piece misses cuts nothing. -/
theorem punch_of_forall {hole : Rect} (hmiss : ∀ piece ∈ pieces, piece.overlaps hole = false) :
    punch pieces hole = pieces := by
  have hkept : pieces.filter (fun piece => !piece.overlaps hole) = pieces :=
    List.filter_eq_self.mpr fun piece hpiece => by rw [hmiss piece hpiece, Bool.not_false]
  have hcut : pieces.filter (fun piece => piece.overlaps hole) = [] :=
    List.filter_eq_nil_iff.mpr fun piece hpiece => by simp [hmiss piece hpiece]
  rw [punch, hkept, hcut, List.flatMap_nil, List.append_nil]

/-- A hole without area cuts nothing. -/
theorem punch_of_isEmpty {hole : Rect} (hpieces : ∀ r ∈ pieces, r.Numeric) (hhole : hole.Numeric)
    (hempty : hole.isEmpty = true) : punch pieces hole = pieces := by
  refine punch_of_forall fun piece hpiece => ?_
  rw [← Bool.not_eq_true, Rect.overlaps_iff (hpieces piece hpiece) hhole]
  intro ⟨p, _, hp⟩
  exact Rect.not_covers_of_isEmpty hempty p hp

theorem edgesIn_punch {P : Coord → Prop} {hole : Rect} (hpieces : ∀ r ∈ pieces, r.EdgesIn P)
    (hhole : hole.EdgesIn P) : ∀ r ∈ punch pieces hole, r.EdgesIn P := by
  intro r hr
  simp only [punch, List.mem_append, List.mem_filter, List.mem_flatMap] at hr
  rcases hr with ⟨hr, _⟩ | ⟨piece, ⟨hpiece, _⟩, hr⟩
  · exact hpieces r hr
  · exact (hpieces piece hpiece).minus hhole r hr

theorem numeric_punch {hole : Rect} (hpieces : ∀ r ∈ pieces, r.Numeric) (hhole : hole.Numeric) :
    ∀ r ∈ punch pieces hole, r.Numeric := by
  simp only [Rect.numeric_iff] at hpieces hhole ⊢
  exact edgesIn_punch hpieces hhole

/-- Clipping pieces against a list of rectangles leaves the points outside all of them. -/
theorem coversAny_foldl_punch (hpieces : ∀ r ∈ pieces, r.Numeric) (hrects : ∀ r ∈ rects, r.Numeric) :
    coversAny (rects.foldl punch pieces) p ↔ coversAny pieces p ∧ ¬ coversAny rects p := by
  induction rects generalizing pieces with
  | nil => simp
  | cons hole rest ih =>
    have hhole := hrects hole List.mem_cons_self
    have hrest : ∀ r ∈ rest, r.Numeric := fun r hr => hrects r (List.mem_cons_of_mem _ hr)
    rw [List.foldl_cons, ih (numeric_punch hpieces hhole) hrest, coversAny_punch hpieces hhole,
      coversAny_cons, not_or, and_assoc]

/-- Dropping the rectangles without area loses no point. -/
@[simp] theorem coversAny_dropEmpty : coversAny (dropEmpty rects) p ↔ coversAny rects p := by
  constructor
  · rintro ⟨r, hr, hp⟩
    exact ⟨r, (List.mem_filter.mp hr).1, hp⟩
  · rintro ⟨r, hr, hp⟩
    exact ⟨r, List.mem_filter.mpr ⟨hr, by simp [hp.isEmpty_eq_false]⟩, hp⟩

theorem dropEmpty_of_forall (h : ∀ r ∈ rects, r.isEmpty = false) : dropEmpty rects = rects :=
  List.filter_eq_self.mpr fun r hr => by rw [h r hr, Bool.not_false]

theorem isEmpty_of_mem_dropEmpty {r : Rect} (h : r ∈ dropEmpty rects) : r.isEmpty = false := by
  simpa using (List.mem_filter.mp h).2

/-! ## Merging -/

/-- Filling a gap with the last rectangle keeps all behind the gap. -/
theorem perm_fillGap (first : Rect) (rest : List Rect) : (fillGap (first :: rest)).Perm rest := by
  cases hlast : rest.getLast? with
  | none =>
    rw [List.getLast?_eq_none_iff] at hlast
    simp [hlast, fillGap]
  | some last =>
    obtain ⟨front, rfl⟩ := List.getLast?_eq_some_iff.mp hlast
    simpa [fillGap] using (List.perm_append_singleton last front).symm

theorem mem_fillGap {r first : Rect} {rest : List Rect} : r ∈ fillGap (first :: rest) ↔ r ∈ rest :=
  (perm_fillGap first rest).mem_iff

theorem coversAny_fillGap {first : Rect} {rest : List Rect} :
    coversAny (fillGap (first :: rest)) p ↔ coversAny rest p := by
  simp only [coversAny, mem_fillGap]

/-- Absorbing neighbours keeps every rectangle's area and the covered points. -/
theorem absorb_spec (grown : Rect) (rest : List Rect) (hgrown : grown.isEmpty = false)
    (hrest : ∀ r ∈ rest, r.isEmpty = false) :
    (absorb grown rest).1.isEmpty = false ∧ (∀ r ∈ (absorb grown rest).2, r.isEmpty = false) ∧
      ∀ p, coversAny ((absorb grown rest).1 :: (absorb grown rest).2) p ↔
        coversAny (grown :: rest) p := by
  fun_induction absorb grown rest with
  | case1 grown => exact ⟨hgrown, hrest, fun p => Iff.rfl⟩
  | case2 grown r others joined hjoin ih =>
    -- a neighbour is joined, and the last rectangle fills its gap: the points of both stay covered
    have hr := hrest r List.mem_cons_self
    have hothers : ∀ s ∈ fillGap (r :: others), s.isEmpty = false :=
      fun s hs => hrest s (List.mem_cons_of_mem _ (mem_fillGap.mp hs))
    obtain ⟨hfst, hsnd, hcov⟩ := ih (Rect.isEmpty_join hgrown hr hjoin) hothers
    refine ⟨hfst, hsnd, fun p => ?_⟩
    rw [hcov p, coversAny_cons, coversAny_fillGap, Rect.covers_join hgrown hr hjoin, coversAny_cons,
      coversAny_cons, or_assoc]
  | case3 grown r others hjoin result ih =>
    -- the rectangle stays apart
    have hr := hrest r List.mem_cons_self
    obtain ⟨hfst, hsnd, hcov⟩ := ih hgrown (fun s hs => hrest s (List.mem_cons_of_mem _ hs))
    refine ⟨hfst, List.forall_mem_cons.mpr ⟨hr, hsnd⟩, fun p => ?_⟩
    have := hcov p
    simp only [coversAny_cons] at this ⊢
    tauto

/-- One merging pass keeps areas and points. -/
theorem mergePass_spec (rects : List Rect) (h : ∀ r ∈ rects, r.isEmpty = false) :
    (∀ r ∈ mergePass rects, r.isEmpty = false) ∧
      ∀ p, coversAny (mergePass rects) p ↔ coversAny rects p := by
  fun_induction mergePass rects with
  | case1 => exact ⟨h, fun p => Iff.rfl⟩
  | case2 r rest ih =>
    obtain ⟨hfst, hsnd, hcov⟩ := absorb_spec r rest (h r List.mem_cons_self)
      (fun s hs => h s (List.mem_cons_of_mem _ hs))
    obtain ⟨hrest, hcovrest⟩ := ih hsnd
    refine ⟨List.forall_mem_cons.mpr ⟨hfst, hrest⟩, fun p => ?_⟩
    rw [← hcov p, coversAny_cons, coversAny_cons, hcovrest p]

/-- Merging to the end keeps areas and points. -/
theorem mergeAll_spec (rects : List Rect) (h : ∀ r ∈ rects, r.isEmpty = false) :
    (∀ r ∈ mergeAll rects, r.isEmpty = false) ∧
      ∀ p, coversAny (mergeAll rects) p ↔ coversAny rects p := by
  fun_induction mergeAll rects with
  | case1 rects _ ih =>
    obtain ⟨hpass, hcov⟩ := mergePass_spec rects h
    obtain ⟨hsolid, hcov'⟩ := ih hpass
    exact ⟨hsolid, fun p => (hcov' p).trans (hcov p)⟩
  | case2 rects _ => exact mergePass_spec rects h

/-! ## Regions -/

namespace Region

variable {r s : Region} {rect : Rect} {offset : Vec}

/-- One of the region's rectangles covers the point. -/
def covers (r : Region) (p : Point) : Prop := coversAny r.rects p

/-- Every edge is a number. -/
def Numeric (r : Region) : Prop := ∀ rect ∈ r.rects, rect.Numeric

/-- Every rectangle has area. -/
def Solid (r : Region) : Prop := ∀ rect ∈ r.rects, rect.isEmpty = false

instance (r : Region) : Decidable r.Solid := inferInstanceAs (Decidable (∀ rect ∈ r.rects, rect.isEmpty = false))

theorem Solid.numeric (h : r.Solid) : r.Numeric :=
  fun rect hrect => Rect.numeric_of_isEmpty_eq_false (h rect hrect)

theorem solid_empty : empty.Solid := by
  intro rect h
  cases h

@[simp] theorem not_covers_empty : ¬ empty.covers p := coversAny_nil

/-- A region without rectangles is one without points. -/
theorem isEmpty_iff (h : r.Solid) : r.isEmpty = true ↔ ∀ p, ¬ r.covers p := by
  unfold isEmpty covers
  constructor
  · intro hempty p hp
    rw [List.isEmpty_iff] at hempty
    rw [hempty] at hp
    exact coversAny_nil hp
  · intro hnone
    rw [List.isEmpty_iff, List.eq_nil_iff_forall_not_mem]
    intro rect hrect
    obtain ⟨p, hp⟩ := Rect.isEmpty_eq_false_iff_exists.mp (h rect hrect)
    exact hnone p ⟨rect, hrect, hp⟩

/-! ### One rectangle -/

theorem isEmpty_of_mem_pieces : ∀ piece ∈ r.pieces rect, piece.isEmpty = false := fun _ => isEmpty_of_mem_dropEmpty

theorem coversAny_pieces (h : r.Numeric) (hrect : rect.normalize.isEmpty = false) :
    coversAny (r.pieces rect) p ↔ r.covers p ∨ rect.normalize.covers p := by
  have hnew : ∀ piece ∈ [rect.normalize], piece.Numeric := by
    simpa using Rect.numeric_of_isEmpty_eq_false hrect
  simp only [Region.pieces, covers, coversAny_dropEmpty, coversAny_append, coversAny_foldl_punch hnew h, coversAny_cons,
    coversAny_nil, or_false]
  tauto

theorem covers_add (h : r.Numeric) :
    (r.add rect).covers p ↔ r.covers p ∨ rect.normalize.covers p := by
  cases hempty : rect.normalize.isEmpty with
  | true => rw [add_of_isEmpty hempty, or_iff_left (Rect.not_covers_of_isEmpty hempty p)]
  | false =>
    rw [add_eq_mergeAll hempty]
    exact ((mergeAll_spec _ isEmpty_of_mem_pieces).2 p).trans (coversAny_pieces h hempty)

/-- Adding a rectangle changes nothing or leaves rectangles with area only. -/
theorem add_eq_or_solid (r : Region) (rect : Rect) : r.add rect = r ∨ (r.add rect).Solid := by
  cases hempty : rect.normalize.isEmpty with
  | true => exact Or.inl (add_of_isEmpty hempty)
  | false =>
    rw [add_eq_mergeAll hempty]
    exact Or.inr (mergeAll_spec _ isEmpty_of_mem_pieces).1

theorem Solid.add (h : r.Solid) : (r.add rect).Solid := by
  rcases add_eq_or_solid r rect with hsame | hsolid
  · rwa [hsame]
  · exact hsolid

theorem Numeric.add (h : r.Numeric) : (r.add rect).Numeric := by
  rcases add_eq_or_solid r rect with hsame | hsolid
  · rwa [hsame]
  · exact hsolid.numeric

theorem solid_ofRect (rect : Rect) : (ofRect rect).Solid := solid_empty.add

theorem covers_ofRect (rect : Rect) : (ofRect rect).covers p ↔ rect.normalize.covers p := by
  rw [ofRect, covers_add solid_empty.numeric, or_iff_right not_covers_empty]

/-- No point outside the rectangle is lost. -/
theorem covers_remove_of (hp : r.covers p) (hout : ¬ rect.normalize.covers p) : (r.remove rect).covers p := by
  cases hempty : rect.normalize.isEmpty with
  | true => rwa [remove_of_isEmpty hempty]
  | false =>
    rw [remove_eq_punch hempty]
    exact coversAny_dropEmpty.mpr (coversAny_punch_of (Rect.numeric_of_isEmpty_eq_false hempty) hp hout)

theorem covers_remove (h : r.Numeric) :
    (r.remove rect).covers p ↔ r.covers p ∧ ¬ rect.normalize.covers p := by
  cases hempty : rect.normalize.isEmpty with
  | true => rw [remove_of_isEmpty hempty, and_iff_left (Rect.not_covers_of_isEmpty hempty p)]
  | false =>
    rw [remove_eq_punch hempty]
    simp only [covers, coversAny_dropEmpty, coversAny_punch h (Rect.numeric_of_isEmpty_eq_false hempty)]

/-- Removing a rectangle changes nothing or leaves rectangles with area only. -/
theorem remove_eq_or_solid (r : Region) (rect : Rect) : r.remove rect = r ∨ (r.remove rect).Solid := by
  cases hempty : rect.normalize.isEmpty with
  | true => exact Or.inl (remove_of_isEmpty hempty)
  | false =>
    rw [remove_eq_punch hempty]
    exact Or.inr fun _ => isEmpty_of_mem_dropEmpty

theorem Solid.remove (h : r.Solid) : (r.remove rect).Solid := by
  rcases remove_eq_or_solid r rect with hsame | hsolid
  · rwa [hsame]
  · exact hsolid

theorem Numeric.remove (h : r.Numeric) : (r.remove rect).Numeric := by
  rcases remove_eq_or_solid r rect with hsame | hsolid
  · rwa [hsame]
  · exact hsolid.numeric

theorem covers_clip (h : r.Numeric) (hrect : rect.normalize.Numeric) :
    (r.clip rect).covers p ↔ r.covers p ∧ rect.normalize.covers p := by
  have hpieces : coversAny (r.rects.map (fun piece => piece.meet rect.normalize)) p ↔
      ∃ piece ∈ r.rects, (piece.meet rect.normalize).covers p := by
    simp [coversAny]
  rw [clip, covers, coversAny_dropEmpty, hpieces]
  constructor
  · rintro ⟨piece, hpiece, hp⟩
    obtain ⟨hin, hcut⟩ := (Rect.covers_meet (h piece hpiece) hrect).mp hp
    exact ⟨⟨piece, hpiece, hin⟩, hcut⟩
  · rintro ⟨⟨piece, hpiece, hin⟩, hcut⟩
    exact ⟨piece, hpiece, (Rect.covers_meet (h piece hpiece) hrect).mpr ⟨hin, hcut⟩⟩

theorem solid_clip : (r.clip rect).Solid := fun _ => isEmpty_of_mem_dropEmpty

/-- A rectangle touches a region if they share a point. -/
theorem touches_of_covers (hr : r.covers p) (hp : rect.normalize.covers p) : r.touches rect = true := by
  obtain ⟨piece, hpiece, hin⟩ := hr
  simp only [touches, Bool.and_eq_true, Bool.not_eq_true', List.any_eq_true]
  exact ⟨hp.isEmpty_eq_false, piece, hpiece, (Rect.overlaps_iff hin.numeric hp.numeric).mpr ⟨p, hin, hp⟩⟩

/-- A rectangle touches a region iff they share a point. -/
theorem touches_iff (h : r.Numeric) :
    r.touches rect = true ↔ ∃ p, r.covers p ∧ rect.normalize.covers p := by
  constructor
  · intro htouches
    simp only [touches, Bool.and_eq_true, Bool.not_eq_true', List.any_eq_true] at htouches
    obtain ⟨hsolid, piece, hpiece, hover⟩ := htouches
    have hrect := Rect.numeric_of_isEmpty_eq_false hsolid
    obtain ⟨p, hin, hp⟩ := (Rect.overlaps_iff (h piece hpiece) hrect).mp hover
    exact ⟨p, ⟨piece, hpiece, hin⟩, hp⟩
  · rintro ⟨p, hin, hp⟩
    exact touches_of_covers hin hp

/-! ### Many rectangles, one after the other -/

theorem covers_foldl_add (rects : List Rect) (h : r.Numeric) :
    (rects.foldl add r).covers p ↔ r.covers p ∨ ∃ rect ∈ rects, rect.normalize.covers p := by
  induction rects generalizing r with
  | nil => simp
  | cons rect rest ih => rw [List.foldl_cons, ih h.add, covers_add h, List.exists_mem_cons_iff, or_assoc]

theorem foldl_add_spec (rects : List Rect) (h : r.Solid) :
    (rects.foldl add r).Solid ∧
      ∀ p, (rects.foldl add r).covers p ↔ r.covers p ∨ ∃ rect ∈ rects, rect.normalize.covers p :=
  ⟨List.foldlRecOn rects add h fun _ h _ _ => h.add, fun _ => covers_foldl_add rects h.numeric⟩

theorem covers_foldl_remove (rects : List Rect) (h : r.Numeric) :
    (rects.foldl remove r).covers p ↔ r.covers p ∧ ¬ ∃ rect ∈ rects, rect.normalize.covers p := by
  induction rects generalizing r with
  | nil => simp
  | cons rect rest ih =>
    rw [List.foldl_cons, ih h.remove, covers_remove h, List.exists_mem_cons_iff, not_or, and_assoc]

theorem foldl_remove_spec (rects : List Rect) (h : r.Solid) :
    (rects.foldl remove r).Solid ∧
      ∀ p, (rects.foldl remove r).covers p ↔
        r.covers p ∧ ¬ ∃ rect ∈ rects, rect.normalize.covers p :=
  ⟨List.foldlRecOn rects remove h fun _ h _ _ => h.remove, fun _ => covers_foldl_remove rects h.numeric⟩

/-- The rectangles of a solid region have their edges in order already. -/
theorem Solid.exists_normalize (h : s.Solid) :
    (∃ rect ∈ s.rects, rect.normalize.covers p) ↔ s.covers p := by
  constructor
  · rintro ⟨rect, hrect, hp⟩
    rw [Rect.normalize_eq_self (h rect hrect)] at hp
    exact ⟨rect, hrect, hp⟩
  · rintro ⟨rect, hrect, hp⟩
    exact ⟨rect, hrect, hp.normalize⟩

/-! ### Two regions -/

theorem covers_union (hr : r.Solid) (hs : s.Solid) :
    (r.union s).covers p ↔ r.covers p ∨ s.covers p := by
  rw [union, (foldl_add_spec s.rects hr).2 p, hs.exists_normalize]

theorem Solid.union (hr : r.Solid) : (r.union s).Solid := (foldl_add_spec s.rects hr).1

theorem covers_diff (hr : r.Solid) (hs : s.Solid) :
    (r.diff s).covers p ↔ r.covers p ∧ ¬ s.covers p := by
  rw [diff, (foldl_remove_spec s.rects hr).2 p, hs.exists_normalize]

theorem Solid.diff (hr : r.Solid) : (r.diff s).Solid := (foldl_remove_spec s.rects hr).1

theorem covers_inter (hr : r.Numeric) (hs : s.Numeric) :
    (r.inter s).covers p ↔ r.covers p ∧ s.covers p := by
  simp only [inter, covers, coversAny, List.mem_flatMap]
  constructor
  · rintro ⟨piece, ⟨a, ha, hpiece⟩, hp⟩
    obtain ⟨b, hb, rfl⟩ := List.mem_map.mp (List.mem_filter.mp hpiece).1
    obtain ⟨hpa, hpb⟩ := (Rect.covers_meet (hr a ha) (hs b hb)).mp hp
    exact ⟨⟨a, ha, hpa⟩, b, hb, hpb⟩
  · rintro ⟨⟨a, ha, hpa⟩, b, hb, hpb⟩
    have hp : (a.meet b).covers p := (Rect.covers_meet (hr a ha) (hs b hb)).mpr ⟨hpa, hpb⟩
    have hmem : a.meet b ∈ dropEmpty (s.rects.map (fun b => a.meet b)) :=
      List.mem_filter.mpr ⟨List.mem_map_of_mem hb, by simp [hp.isEmpty_eq_false]⟩
    exact ⟨a.meet b, ⟨a, ha, hmem⟩, hp⟩

theorem solid_inter : (r.inter s).Solid := by
  intro piece hpiece
  obtain ⟨a, _, hpiece⟩ := List.mem_flatMap.mp hpiece
  exact isEmpty_of_mem_dropEmpty hpiece

/-! ### Shifts -/

/-- The region with every rectangle moved, whatever the offset. -/
def moved (s : Region) (offset : Vec) : Region := ⟨s.rects.map (fun rect => rect.shift offset)⟩

/-- Each rectangle of the region moves by the offset without being rounded. -/
def ShiftsExactly (s : Region) (offset : Vec) : Prop := ∀ rect ∈ s.rects, rect.ShiftsExactly offset

theorem ShiftsExactly.covers_moved (h : s.ShiftsExactly offset) :
    (s.moved offset).covers p ↔ s.covers (p - offset.value) := by
  have hmap : (s.moved offset).covers p ↔ ∃ rect ∈ s.rects, (rect.shift offset).covers p := by
    simp [moved, covers, coversAny]
  rw [hmap]
  exact exists_congr fun rect => and_congr_right fun hrect => (h rect hrect).covers_shift

theorem ShiftsExactly.solid_moved (h : s.ShiftsExactly offset) (hs : s.Solid) :
    (s.moved offset).Solid := by
  intro moved hmoved
  obtain ⟨rect, hrect, rfl⟩ := List.mem_map.mp hmoved
  exact (h rect hrect).isEmpty_shift (hs rect hrect)

/-- An offset that agrees with zero is the zero vector. -/
theorem value_eq_zero_of_agrees (h : offset.agrees Vec.zero = true) : offset.value = 0 := by
  simp only [Vec.agrees, Bool.and_eq_true] at h
  rw [Vec.value, Binary.eq_of_agrees h.1, Binary.eq_of_agrees h.2]
  simp [Vec.zero]

/-- The shift by zero leaves out the additions, and would have changed no point. -/
theorem ShiftsExactly.covers_shift (h : s.ShiftsExactly offset) :
    (s.shift offset).covers p ↔ s.covers (p - offset.value) := by
  unfold shift
  split
  · rename_i hzero
    rw [value_eq_zero_of_agrees hzero, sub_zero]
  · exact h.covers_moved

theorem ShiftsExactly.solid_shift (h : s.ShiftsExactly offset) (hs : s.Solid) :
    (s.shift offset).Solid := by
  unfold shift
  split
  · exact hs
  · exact h.solid_moved hs

theorem unionAt_eq_union_moved : r.unionAt s offset = r.union (s.moved offset) := by
  simp only [unionAt, union, moved, List.foldl_map]

theorem diffAt_eq_diff_moved : r.diffAt s offset = r.diff (s.moved offset) := by
  simp only [diffAt, diff, moved, List.foldl_map]

theorem interAt_eq_inter_moved : r.interAt s offset = r.inter (s.moved offset) := by
  simp only [interAt, inter, moved, List.map_map, Function.comp_def]

end Region

end Repaint
