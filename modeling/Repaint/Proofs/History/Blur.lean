import Repaint.Proofs.History.Dilation
import Repaint.Proofs.Region.Whole

/-!
# Blurs spread an area as far as they reach

A blurring layer shows at a point of its bounds what lies beneath it near that point. A change therefore spreads to
the points of the bounds that lie near a changed one, and each layer going up spreads what those beneath it left.

* **one layer** — the spread of a blur that reaches a finite distance is a dilation (`Layer.spread_eq_dilate`);
* **all layers** — the spread of an area covers the spread of its points (`SpreadsExactly.covers_spreadBlur`);
* **whole coordinates** — layers and blurs of whole numbers round nothing (`History.spreadsExactly_of_whole`).
-/

namespace Repaint

/-- How far a blur reaches; an extent below zero, or one that is not a number, counts as none. -/
noncomputable def Size.reach (blur : Size) : ℝ × ℝ :=
  ((max blur.width 0).value, (max blur.height 0).value)

/-! ## One layer -/

namespace Layer

variable {layer : Layer} {dx dy : Coord} {area : Region} {p : Point}

/-- The points, and those of a blurring layer's bounds that lie near one of them. -/
def spread (layer : Layer) (reach : ℝ × ℝ) (s : Set Point) : Set Point :=
  if layer.blurs then s ∪ {p | layer.bounds.covers p ∧ ∃ q ∈ s, Near reach p q} else s

/-- No sum is rounded when the area spreads into the layer, and the blur reaches a finite distance. -/
structure SpreadsExactly (layer : Layer) (dx dy : Coord) (area : Region) : Prop where
  bounds : layer.bounds.GrowsExactly dx dy
  near : ∀ rect ∈ (area.clip (layer.bounds.grow dx dy)).rects, rect.GrowsExactly dx dy

instance (layer : Layer) (dx dy : Coord) (area : Region) : Decidable (layer.SpreadsExactly dx dy area) :=
  decidable_of_iff (layer.bounds.GrowsExactly dx dy ∧
      ∀ rect ∈ (area.clip (layer.bounds.grow dx dy)).rects, rect.GrowsExactly dx dy)
    ⟨fun ⟨h1, h2⟩ => ⟨h1, h2⟩, fun ⟨h1, h2⟩ => ⟨h1, h2⟩⟩

theorem subset_spread (layer : Layer) (reach : ℝ × ℝ) (s : Set Point) : s ⊆ layer.spread reach s := by
  intro p hp
  unfold spread
  split
  · exact Or.inl hp
  · exact hp

theorem SpreadsExactly.widens (h : layer.SpreadsExactly dx dy area) : layer.WidensExactly dx dy area :=
  ⟨h.bounds.widens, fun rect hrect => (h.near rect hrect).widens⟩

/-- Where the blur reaches a finite distance, its spread is what it dilates a set of points to. -/
theorem spread_eq_dilate (layer : Layer) (s : Set Point) (hdx : dx.isFinite = true) (hdy : dy.isFinite = true) :
    layer.spread (dx.value, dy.value) s = layer.dilate dx dy s := by
  have hbounds : layer.bounds.points = {p | layer.bounds.covers p} := Set.ext fun _ => Rect.mem_points_ofOrigin
  simp only [spread, dilate, haze, Within, Near, Binary.atLeast_iff_le_value hdx, Binary.atLeast_iff_le_value hdy,
    hbounds, Set.mem_ofPred_eq]

end Layer

/-! ## All layers -/

/-- The points that a set of points spreads to through the layers, bottom to top. -/
def spreadPoints (reach : ℝ × ℝ) (layers : List Layer) (s : Set Point) : Set Point :=
  layers.foldl (fun s layer => layer.spread reach s) s

/-- No sum is rounded when the area spreads through the layers, each of which takes it as those beneath it left
it. -/
def EachSpreadsExactly (dx dy : Coord) : List Layer → Region → Prop
  | [], _ => True
  | layer :: layers, area =>
    (layer.blurs = true → layer.SpreadsExactly dx dy area) ∧
      EachSpreadsExactly dx dy layers (if layer.blurs then spreadInto layer dx dy area else area)

instance decidableEachSpreadsExactly (dx dy : Coord) : (layers : List Layer) → (area : Region) →
    Decidable (EachSpreadsExactly dx dy layers area)
  | [], _ => .isTrue trivial
  | layer :: layers, area =>
    have := decidableEachSpreadsExactly dx dy layers
      (if layer.blurs then spreadInto layer dx dy area else area)
    inferInstanceAs (Decidable (_ ∧ _))

/-- No sum that a blur makes of the area is rounded. A blur without reach makes none. -/
def SpreadsExactly (layers : List Layer) (blur : Size) (area : Region) : Prop :=
  ((max blur.width 0).agrees 0 && (max blur.height 0).agrees 0) = true ∨
    EachSpreadsExactly (max blur.width 0) (max blur.height 0) layers area

instance (layers : List Layer) (blur : Size) (area : Region) : Decidable (SpreadsExactly layers blur area) :=
  inferInstanceAs (Decidable (_ ∨ _))

variable {layers : List Layer} {blur : Size} {area : Region} {p : Point}

theorem EachSpreadsExactly.widens {dx dy : Coord} (h : EachSpreadsExactly dx dy layers area) :
    EachWidensExactly dx dy layers area := by
  induction layers generalizing area with
  | nil => exact trivial
  | cons layer layers ih => exact ⟨fun hblurs => (h.1 hblurs).widens, ih h.2⟩

theorem EachSpreadsExactly.spreadPoints_eq {dx dy : Coord} (h : EachSpreadsExactly dx dy layers area)
    (s : Set Point) :
    spreadPoints (dx.value, dy.value) layers s = layers.foldl (fun s layer => layer.dilate dx dy s) s := by
  induction layers generalizing area s with
  | nil => rfl
  | cons layer layers ih =>
    obtain ⟨hlayer, hrest⟩ := h
    have hspread : layer.spread (dx.value, dy.value) s = layer.dilate dx dy s := by
      by_cases hblurs : layer.blurs = true
      · have hbounds := (hlayer hblurs).bounds
        exact layer.spread_eq_dilate s (Binary.isFinite_of_addsExactly hbounds.right)
          (Binary.isFinite_of_addsExactly hbounds.bottom)
      · rw [Layer.spread, Layer.dilate, if_neg hblurs, if_neg hblurs]
    show spreadPoints _ layers (layer.spread _ s) = _
    rw [hspread, ih hrest]
    rfl

/-- **The spread of an area covers the spread of its points.** -/
theorem SpreadsExactly.covers_spreadBlur (h : SpreadsExactly layers blur area) (harea : area.Solid) :
    (spreadBlur layers blur area).covers p ↔ p ∈ spreadPoints blur.reach layers {p | area.covers p} := by
  have hpoints : area.points = {p | area.covers p} := Set.ext fun _ => harea.mem_points
  have hspread : spreadPoints blur.reach layers area.points =
      layers.foldl (fun s layer => layer.dilate (max blur.width 0) (max blur.height 0) s) area.points := by
    rcases h with hnone | heach
    · obtain ⟨hdx, hdy⟩ := Bool.and_eq_true_iff.mp hnone
      rw [Size.reach, Binary.eq_of_agrees hdx, Binary.eq_of_agrees hdy]
      exact List.foldl_ext _ _ _ fun s layer _ => layer.spread_eq_dilate s rfl rfl
    · exact heach.spreadPoints_eq area.points
  have hwidens : WidensExactly layers blur area := h.imp_right EachSpreadsExactly.widens
  rw [← hpoints, hspread, ← hwidens.points_spreadBlur harea, (spreadBlur_spec layers blur harea).1.mem_points]

/-! ## Whole coordinates -/

/-- All edges that the layer can bring into an area have a property. -/
structure Layer.EdgesIn (P : Coord → Prop) (l : Layer) : Prop where
  bounds : l.bounds.EdgesIn P
  shadow : l.shadowBounds.EdgesIn P
  damaged : l.damaged.EdgesIn P

variable {P : Coord → Prop} {newer older : Frame} {bound reach : Nat}

theorem edgesIn_addExtent {l : Layer} (h : l.EdgesIn P) (harea : area.EdgesIn P) :
    (l.addExtent area).EdgesIn P :=
  (harea.add fun _ => h.bounds.normalize).add fun _ => h.shadow.normalize

theorem edgesIn_visit {s s' : ChangeSweep} {layer : Layer} (hlayer : layer.EdgesIn P)
    (holder : ∀ old ∈ older.layers, old.EdgesIn P) (hs : s.area.EdgesIn P)
    (hok : ChangeSweep.visit older s layer = .ok s') : s'.area.EdgesIn P := by
  unfold ChangeSweep.visit at hok
  cases hprev : layer.prevRank with
  | none =>
    rw [hprev] at hok
    cases hok
    exact edgesIn_addExtent hlayer hs
  | some prev =>
    simp only [hprev, bind_eq_ok_iff] at hok
    obtain ⟨old, hold, hok⟩ := hok
    cases hok
    have hedges := holder old (List.mem_of_getElem? (Frame.layer_eq_ok_iff.mp hold))
    show Region.EdgesIn P (if _ then _ else _)
    split
    · exact edgesIn_addExtent hlayer (edgesIn_addExtent hedges hs)
    · exact hs.foldl_add fun rect hrect _ => (hlayer.damaged rect hrect).normalize

theorem edgesIn_changesBetween {area' : Region} (hnewer : ∀ layer ∈ newer.layers, layer.EdgesIn P)
    (holder : ∀ old ∈ older.layers, old.EdgesIn P) (harea : area.EdgesIn P)
    (hok : changesBetween newer older area = .ok area') : area'.EdgesIn P := by
  obtain ⟨s, hsweep, hvanished⟩ := bind_eq_ok_iff.mp hok
  cases hvanished
  have hs : s.area.EdgesIn P := by
    apply foldlM_rel (R := fun s (_ : Unit) => s.area.EdgesIn P) (g := fun u _ => u) (c := ()) harea ?_ hsweep
    intro layer hlayer s _ s' hs hok
    exact edgesIn_visit (hnewer layer hlayer) holder hs hok
  apply List.foldlRecOn older.layers _ hs
  intro area harea old hold
  show Region.EdgesIn P (if _ then _ else _)
  split
  · exact edgesIn_addExtent (holder old hold) harea
  · exact harea

theorem Layer.spreadsExactly_of_whole {layer : Layer} {dx dy : Coord}
    (hbounds : layer.bounds.EdgesIn (Binary.WholeUpTo bound)) (harea : area.EdgesIn (Binary.WholeUpTo bound))
    (hdx : dx.WholeUpTo reach) (hdy : dy.WholeUpTo reach) (hsmall : bound + 2 * reach < pow2 53) :
    layer.SpreadsExactly dx dy area ∧ (spreadInto layer dx dy area).EdgesIn (Binary.WholeUpTo bound) := by
  obtain ⟨hexact, hreach⟩ := hbounds.grow_whole hdx hdy (by omega)
  have harea' : area.EdgesIn (Binary.WholeUpTo (bound + reach)) := by
    intro rect hrect
    obtain ⟨hl, ht, hr, hb⟩ := harea rect hrect
    exact ⟨hl.mono (by omega), ht.mono (by omega), hr.mono (by omega), hb.mono (by omega)⟩
  have hnear : (area.clip (layer.bounds.grow dx dy)).EdgesIn (Binary.WholeUpTo (bound + reach)) :=
    harea'.clip hreach
  have hgrow := fun rect hrect => (hnear rect hrect).grow_whole hdx hdy (by omega)
  refine ⟨⟨hexact, fun rect hrect => (hgrow rect hrect).1⟩, ?_⟩
  simp only [spreadInto]
  split
  · -- what is added is cut to the bounds again
    apply List.foldlRecOn _ _ harea
    intro area harea rect hrect
    apply harea.add
    rw [Rect.normalize_meet (hgrow rect hrect).1.widens.numeric_grow hexact.widens.numeric]
    exact (hgrow rect hrect).2.meet_whole hbounds (by omega)
  · exact harea

theorem eachSpreadsExactly_of_whole {dx dy : Coord}
    (hlayers : ∀ layer ∈ layers, layer.bounds.EdgesIn (Binary.WholeUpTo bound))
    (harea : area.EdgesIn (Binary.WholeUpTo bound)) (hdx : dx.WholeUpTo reach) (hdy : dy.WholeUpTo reach)
    (hsmall : bound + 2 * reach < pow2 53) : EachSpreadsExactly dx dy layers area := by
  induction layers generalizing area with
  | nil => exact trivial
  | cons layer layers ih =>
    obtain ⟨hfirst, hrest⟩ := List.forall_mem_cons.mp hlayers
    obtain ⟨hexact, hspread⟩ := Layer.spreadsExactly_of_whole hfirst harea hdx hdy hsmall
    refine ⟨fun _ => hexact, ?_⟩
    split
    · exact ih hrest hspread
    · exact ih hrest harea

/-- Where all coordinates of the span are whole numbers, and so is the blur, a damage query rounds nothing as long
as the blur reaches no further than doubles can count. -/
theorem History.spreadsExactly_of_whole {h : History} {age : Nat} {changes : Region}
    (hlayers : ∀ i ≤ age, ∀ layer ∈ (h.frames.get i).layers, layer.EdgesIn (Binary.WholeUpTo bound))
    (hwidth : blur.width.WholeUpTo reach) (hheight : blur.height.WholeUpTo reach)
    (hsmall : bound + 2 * reach < pow2 53) (hok : h.changesSince age = .ok changes) :
    SpreadsExactly h.newest.layers blur changes := by
  have hzero : (0 : Coord).WholeUpTo reach := ⟨0, Nat.zero_le _, by rw [Int.zero_mul]; rfl⟩
  have hchanges : changes.EdgesIn (Binary.WholeUpTo bound) := by
    apply foldlM_rel (R := fun (area : Region) (_ : Unit) => area.EdgesIn (Binary.WholeUpTo bound))
      (g := fun u _ => u) (c := ()) Region.EdgesIn.empty ?_ hok
    intro i hi area _ area' harea hok
    have hi := List.mem_range.mp hi
    exact edgesIn_changesBetween (hlayers i (by omega)) (hlayers (i + 1) (by omega)) harea hok
  have hnewest : ∀ layer ∈ h.newest.layers, layer.bounds.EdgesIn (Binary.WholeUpTo bound) :=
    fun layer hlayer => (hlayers 0 (Nat.zero_le _) layer hlayer).bounds
  right
  apply eachSpreadsExactly_of_whole hnewest hchanges _ _ hsmall
  · exact Binary.max_mem hwidth hzero
  · exact Binary.max_mem hheight hzero

end Repaint
