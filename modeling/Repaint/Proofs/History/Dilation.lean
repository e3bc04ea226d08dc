import Repaint.Proofs.History.Damage
import Repaint.Proofs.Region.Program

/-!
# A blur dilates an area

A blurring layer adds to an area those points of its bounds that lie within reach of it, and each layer going up
takes the area as the layers beneath it left it. That is all that the spread of an area does to its points
(`spreadBlur_dilates`). It is computed with detours: an area is first cut to what the bounds reach, a layer that nothing
is in reach of is skipped, and what is left grows rectangle by rectangle while the area changes. The reach may be
infinite.

* **one layer** — it adds to its bounds what the rectangles near them grow to (`Layer.covers_spreadInto`). Cutting the
  area loses no point that counts, and whatever its rectangles are, what they grow to is near one of its points
  (`Layer.WidensExactly.covers_spreadInto`);
* **all layers** — the fold over the layers, by induction (`EachWidensExactly.points_foldl`).
-/

namespace Repaint

/-! ## One layer -/

namespace Layer

variable {layer : Layer} {dx dy : Coord} {area : Region} {p : Point}

/-- The points of the layer's bounds that lie within reach of a set of points. -/
def haze (layer : Layer) (dx dy : Coord) (s : Set Point) : Set Point :=
  {p | p ∈ layer.bounds.points ∧ ∃ q ∈ s, Within dx dy p q}

/-- The points, and those that a blurring layer adds to them. -/
def dilate (layer : Layer) (dx dy : Coord) (s : Set Point) : Set Point :=
  if layer.blurs then s ∪ layer.haze dx dy s else s

/-- No sum is rounded when the area spreads into the layer, however far the blur reaches. -/
structure WidensExactly (layer : Layer) (dx dy : Coord) (area : Region) : Prop where
  bounds : layer.bounds.WidensExactly dx dy
  near : ∀ rect ∈ (area.clip (layer.bounds.grow dx dy)).rects, rect.WidensExactly dx dy

instance (layer : Layer) (dx dy : Coord) (area : Region) : Decidable (layer.WidensExactly dx dy area) :=
  decidable_of_iff (layer.bounds.WidensExactly dx dy ∧
      ∀ rect ∈ (area.clip (layer.bounds.grow dx dy)).rects, rect.WidensExactly dx dy)
    ⟨fun ⟨h1, h2⟩ => ⟨h1, h2⟩, fun ⟨h1, h2⟩ => ⟨h1, h2⟩⟩

/-- An area that is in reach of the bounds adds to them what its rectangles near the bounds grow to. An area that is not
has no rectangle near them. -/
theorem covers_spreadInto (harea : area.Solid) (hdx : dx.AtLeast 0) (hdy : dy.AtLeast 0) :
    (spreadInto layer dx dy area).covers p ↔ area.covers p ∨
      layer.bounds.covers p ∧ ∃ rect ∈ (area.clip (layer.bounds.grow dx dy)).rects, (rect.grow dx dy).covers p := by
  have hsolid : (area.clip (layer.bounds.grow dx dy)).Solid := Region.solid_clip
  by_cases htouch : area.touches (layer.bounds.grow dx dy) = true
  · have hbounds : layer.bounds.Numeric := by
      obtain ⟨q, _, hq⟩ := (Region.touches_iff harea.numeric).mp htouch
      exact Rect.numeric_of_numeric_grow (Rect.numeric_of_isEmpty_normalize hq.isEmpty_eq_false)
    have hpiece : ∀ rect ∈ (area.clip (layer.bounds.grow dx dy)).rects,
        (((rect.grow dx dy).meet layer.bounds).normalize.covers p ↔
          (rect.grow dx dy).covers p ∧ layer.bounds.covers p) := by
      intro rect hrect
      obtain ⟨q, hq⟩ := Rect.isEmpty_eq_false_iff_exists.mp (hsolid rect hrect)
      have hgrown := hq.numeric_grow hdx hdy
      rw [Rect.normalize_meet hgrown hbounds, Rect.covers_meet hgrown hbounds]
    have hadded := (Region.foldl_add_spec (((area.clip (layer.bounds.grow dx dy)).rects).map
      (fun rect => (rect.grow dx dy).meet layer.bounds)) harea).2 p
    rw [List.foldl_map] at hadded
    simp only [spreadInto, if_pos htouch]
    rw [hadded]
    refine or_congr_right ?_
    simp only [List.mem_map, exists_exists_and_eq_and]
    constructor
    · rintro ⟨rect, hrect, hp⟩
      obtain ⟨hgrown, hin⟩ := (hpiece rect hrect).mp hp
      exact ⟨hin, rect, hrect, hgrown⟩
    · rintro ⟨hin, rect, hrect, hgrown⟩
      exact ⟨rect, hrect, (hpiece rect hrect).mpr ⟨hgrown, hin⟩⟩
  · simp only [spreadInto, if_neg htouch]
    refine (or_iff_left ?_).symm
    rintro ⟨hin, rect, hrect, _⟩
    -- a rectangle near the bounds would be in their reach
    have hreach := (hin.numeric_grow hdx hdy).normalize
    obtain ⟨q, hq⟩ := Rect.isEmpty_eq_false_iff_exists.mp (hsolid rect hrect)
    have hcut := (Region.covers_clip harea.numeric hreach).mp ⟨rect, hrect, hq⟩
    exact htouch ((Region.touches_iff harea.numeric).mpr ⟨q, hcut⟩)

/-- What lies within reach of a point of the bounds lies in what the bounds reach. -/
theorem WidensExactly.covers_reach (h : layer.WidensExactly dx dy area) (hdx : dx.AtLeast 0) (hdy : dy.AtLeast 0)
    {q : Point} (hp : layer.bounds.covers p) (hnear : Within dx dy p q) :
    (layer.bounds.grow dx dy).normalize.covers q := by
  apply Rect.covers.normalize
  rw [h.bounds.covers_grow hp.isEmpty_eq_false hdx hdy]
  exact ⟨p, hp, hnear.symm⟩

theorem WidensExactly.covers_spreadInto (h : layer.WidensExactly dx dy area) (harea : area.Solid)
    (hdx : dx.AtLeast 0) (hdy : dy.AtLeast 0) :
    (spreadInto layer dx dy area).covers p ↔ area.covers p ∨
      layer.bounds.covers p ∧ ∃ q, area.covers q ∧ Within dx dy p q := by
  have hsolid : (area.clip (layer.bounds.grow dx dy)).Solid := Region.solid_clip
  have hcut : ∀ q, (area.clip (layer.bounds.grow dx dy)).covers q ↔
      area.covers q ∧ (layer.bounds.grow dx dy).normalize.covers q :=
    fun q => Region.covers_clip harea.numeric h.bounds.numeric_grow.normalize
  rw [Layer.covers_spreadInto harea hdx hdy]
  refine or_congr_right (and_congr_right fun hp => ?_)
  constructor
  · intro ⟨rect, hrect, hgrown⟩
    obtain ⟨q, hq, hnear⟩ := ((h.near rect hrect).covers_grow (hsolid rect hrect) hdx hdy).mp hgrown
    exact ⟨q, ((hcut q).mp ⟨rect, hrect, hq⟩).1, hnear⟩
  · intro ⟨q, hq, hnear⟩
    obtain ⟨rect, hrect, hqr⟩ := (hcut q).mpr ⟨hq, h.covers_reach hdx hdy hp hnear⟩
    exact ⟨rect, hrect, ((h.near rect hrect).covers_grow (hsolid rect hrect) hdx hdy).mpr ⟨q, hqr, hnear⟩⟩

theorem WidensExactly.points_spreadInto (h : layer.WidensExactly dx dy area) (harea : area.Solid)
    (hdx : dx.AtLeast 0) (hdy : dy.AtLeast 0) :
    (spreadInto layer dx dy area).points = area.points ∪ layer.haze dx dy area.points := by
  ext p
  rw [(spreadInto_spec layer dx dy harea).1.mem_points, h.covers_spreadInto harea hdx hdy, Set.mem_union,
    harea.mem_points]
  refine or_congr_right (and_congr Rect.mem_points_ofOrigin.symm (exists_congr fun q => ?_))
  rw [harea.mem_points]

/-- A blur that reaches nothing but the point itself adds nothing. -/
theorem dilate_zero (layer : Layer) (s : Set Point) : layer.dilate 0 0 s = s := by
  have hself {x y : ℝ} (h : (0 : Coord).AtLeast |x - y|) : x = y := by
    rw [Binary.atLeast_iff_le_value rfl, Binary.value_zero] at h
    exact sub_eq_zero.mp (abs_nonpos_iff.mp h)
  unfold dilate
  split
  · refine Set.union_eq_self_of_subset_right ?_
    rintro p ⟨_, q, hq, hx, hy⟩
    rwa [show p = q from Prod.ext (hself hx) (hself hy)]
  · rfl

/-- A layer blurs iff it is translucent and its blur is seen. -/
theorem blurs_iff (hopacity : layer.blurOpacity ≠ .nan) :
    layer.blurs = true ↔ layer.isOpaque = false ∧ 0 < layer.blurOpacity := by
  have hzero : (0 : Opacity) ≠ .nan := by decide
  rw [← Binary.not_le_iff_lt hopacity hzero]
  simp [blurs]

end Layer

/-! ## All layers -/

/-- No sum is rounded when the area spreads through the layers, each of which takes it as those beneath it left
it. -/
def EachWidensExactly (dx dy : Coord) : List Layer → Region → Prop
  | [], _ => True
  | layer :: layers, area =>
    (layer.blurs = true → layer.WidensExactly dx dy area) ∧
      EachWidensExactly dx dy layers (if layer.blurs then spreadInto layer dx dy area else area)

instance decidableEachWidensExactly (dx dy : Coord) : (layers : List Layer) → (area : Region) →
    Decidable (EachWidensExactly dx dy layers area)
  | [], _ => .isTrue trivial
  | layer :: layers, area =>
    have := decidableEachWidensExactly dx dy layers
      (if layer.blurs then spreadInto layer dx dy area else area)
    inferInstanceAs (Decidable (_ ∧ _))

/-- No sum that a blur makes of the area is rounded. A blur without reach makes none. -/
def WidensExactly (layers : List Layer) (blur : Size) (area : Region) : Prop :=
  ((max blur.width 0).agrees 0 && (max blur.height 0).agrees 0) = true ∨
    EachWidensExactly (max blur.width 0) (max blur.height 0) layers area

instance (layers : List Layer) (blur : Size) (area : Region) : Decidable (WidensExactly layers blur area) :=
  inferInstanceAs (Decidable (_ ∨ _))

variable {layers : List Layer} {blur : Size} {area : Region}

theorem EachWidensExactly.points_foldl {dx dy : Coord} (h : EachWidensExactly dx dy layers area)
    (harea : area.Solid) (hdx : dx.AtLeast 0) (hdy : dy.AtLeast 0) :
    (layers.foldl (fun area layer => if layer.blurs then spreadInto layer dx dy area else area) area).points =
      layers.foldl (fun s layer => layer.dilate dx dy s) area.points := by
  induction layers generalizing area with
  | nil => rfl
  | cons layer layers ih =>
    obtain ⟨hlayer, hrest⟩ := h
    rw [List.foldl_cons, List.foldl_cons, Layer.dilate]
    by_cases hblurs : layer.blurs = true
    · simp only [if_pos hblurs] at hrest ⊢
      rw [ih hrest (spreadInto_spec layer dx dy harea).1, (hlayer hblurs).points_spreadInto harea hdx hdy]
    · simp only [if_neg hblurs] at hrest ⊢
      exact ih hrest harea

theorem WidensExactly.points_spreadBlur (h : WidensExactly layers blur area) (harea : area.Solid) :
    (spreadBlur layers blur area).points =
      layers.foldl (fun s layer => layer.dilate (max blur.width 0) (max blur.height 0) s) area.points := by
  by_cases hnone : ((max blur.width 0).agrees 0 && (max blur.height 0).agrees 0) = true
  · obtain ⟨hdx, hdy⟩ := Bool.and_eq_true_iff.mp hnone
    rw [spreadBlur, if_pos hnone, Binary.eq_of_agrees hdx, Binary.eq_of_agrees hdy]
    simp only [Layer.dilate_zero, List.foldl_fixed]
  · simp only [spreadBlur, if_neg hnone]
    exact (h.resolve_left hnone).points_foldl harea (Binary.atLeast_max_zero _) (Binary.atLeast_max_zero _)

/-- **A blur dilates an area.** Where no sum is rounded, whatever the layers, the blur and the area: the points of the
area after the spread are those of a plain fold. Each layer, bottom to top, that is translucent and whose blur is seen
adds the points of its bounds that lie within reach of those so far. How the area is cut into rectangles makes no
difference. -/
theorem spreadBlur_dilates (hopacity : ∀ layer ∈ layers, layer.blurOpacity ≠ .nan) (harea : area.Solid)
    (hexact : WidensExactly layers blur area) :
    (spreadBlur layers blur area).points = layers.foldl (fun s layer =>
      if layer.isOpaque = false ∧ 0 < layer.blurOpacity then
        s ∪ layer.haze (max blur.width 0) (max blur.height 0) s
      else s) area.points ∧
    ∀ other : Region, other.Solid → WidensExactly layers blur other → other.points = area.points →
      (spreadBlur layers blur other).points = (spreadBlur layers blur area).points := by
  refine ⟨?_, fun other hother hexact' hpoints => ?_⟩
  · rw [hexact.points_spreadBlur harea]
    refine List.foldl_ext _ _ _ fun s layer hlayer => ?_
    simp only [Layer.dilate, Layer.blurs_iff (hopacity layer hlayer)]
  · rw [hexact.points_spreadBlur harea, hexact'.points_spreadBlur hother, hpoints]

/-- A background with two panes of glass over it that overlap. -/
def paneLayers : List Layer :=
  [{ size := ⟨Binary.ofInt 32, Binary.ofInt 8⟩, isOpaque := true },
    { origin := ⟨Binary.ofInt 4, 0⟩, size := ⟨Binary.ofInt 8, Binary.ofInt 8⟩, blurOpacity := 1 },
    { origin := ⟨Binary.ofInt 10, 0⟩, size := ⟨Binary.ofInt 8, Binary.ofInt 8⟩, blurOpacity := 1 }]

/-- A spot left of the panes, in one piece. -/
def wholeSpot : Region := ⟨[⟨Binary.ofInt 1, 1, Binary.ofInt 3, Binary.ofInt 2⟩]⟩

/-- The same spot in two pieces. -/
def cutSpot : Region :=
  ⟨[⟨Binary.ofInt 1, 1, Binary.ofInt 2, Binary.ofInt 2⟩, ⟨Binary.ofInt 2, 1, Binary.ofInt 3, Binary.ofInt 2⟩]⟩

theorem points_cutSpot : cutSpot.points = wholeSpot.points := by
  have hcut : cutSpot.Solid := by decide +kernel
  have hwhole : wholeSpot.Solid := by decide +kernel
  have hjoined : Region.ofRects cutSpot.rects = wholeSpot := by decide +kernel
  ext p
  have hadded := (Region.foldl_add_spec cutSpot.rects Region.solid_empty).2 p
  rw [show cutSpot.rects.foldl Region.add Region.empty = wholeSpot from hjoined] at hadded
  rw [hcut.mem_points, hwhole.mem_points, hadded, hcut.exists_normalize]
  exact (or_iff_right Region.not_covers_empty).symm

/-- The spot spreads through one pane into the other, as far to the sides as two and up and down without an end. -/
theorem spreadBlur_dilates_paneLayers :
    ∃ blur : Size, blur.height = .posInf ∧ WidensExactly paneLayers blur wholeSpot ∧
      (spreadBlur paneLayers blur wholeSpot).points = paneLayers.foldl (fun s layer =>
        if layer.isOpaque = false ∧ 0 < layer.blurOpacity then
          s ∪ layer.haze (max blur.width 0) (max blur.height 0) s
        else s) wholeSpot.points ∧
      (spreadBlur paneLayers blur cutSpot).points = (spreadBlur paneLayers blur wholeSpot).points := by
  have hwhole : WidensExactly paneLayers ⟨Binary.ofInt 2, .posInf⟩ wholeSpot := by decide +kernel
  have hcut : WidensExactly paneLayers ⟨Binary.ofInt 2, .posInf⟩ cutSpot := by decide +kernel
  obtain ⟨hfold, hsame⟩ := spreadBlur_dilates (by decide +kernel) (by decide +kernel) hwhole
  exact ⟨_, rfl, hwhole, hfold, hsame cutSpot (by decide +kernel) hcut points_cutSpot⟩

end Repaint
