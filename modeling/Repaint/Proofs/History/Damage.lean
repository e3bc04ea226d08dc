import Repaint.History.Damage
import Repaint.Proofs.Frame
import Repaint.Proofs.Outcome
import Repaint.Proofs.Region.Cover

/-!
# What a damage query collects

The area between two frames, as a set of points. `Frame.changed newer older p` says that something may have
changed at a point from the older frame to the newer one, layer by layer; the sweep over the newer frame and the
layers that vanished together collect exactly those points (`changesBetween_spec`).

The sweep goes up with the highest older rank met so far. Its invariant is indexed by the layers it has left
behind: a rank is below the highest one iff it is below that of a layer left behind (`ChangeSweep.Behind`).

Blurs only add to the area (`spreadBlur_spec`).
-/

namespace Repaint

variable {area : Region} {p : Point}

namespace Layer

/-- The point lies in the layer's bounds or in its shadow. -/
def occupies (l : Layer) (p : Point) : Prop := l.bounds.covers p ∨ l.shadowBounds.covers p

/-- The point lies in the damage of the layer's content. -/
def damages (l : Layer) (p : Point) : Prop := ∃ rect ∈ l.damaged.rects, rect.normalize.covers p

theorem solid_addExtent (l : Layer) (h : area.Solid) : (l.addExtent area).Solid := h.add.add

theorem covers_addExtent (l : Layer) (h : area.Solid) :
    (l.addExtent area).covers p ↔ area.covers p ∨ l.occupies p := by
  rw [addExtent, Region.covers_add h.add.numeric, Region.covers_add h.numeric, bounds, shadowBounds,
    Rect.normalize_ofOrigin, Rect.normalize_ofOrigin, or_assoc]
  exact Iff.rfl

end Layer

/-! ## One frame to the next -/

/-- One of the layers had a higher rank in the older frame. -/
def outranked (below : List Layer) (prev : Nat) : Prop :=
  ∃ lower ∈ below, ∃ rank, lower.prevRank = some rank ∧ prev < rank

/-- The point may have changed because of a layer of the newer frame, which stands on the layers `below`. -/
def Layer.changes (layer : Layer) (older : Frame) (below : List Layer) (p : Point) : Prop :=
  match layer.prevRank with
  | none => layer.occupies p
  | some prev => ∃ old, older.layers[prev]? = some old ∧
    (((outranked below prev ∨ layer.looksDifferent old = true) ∧ (old.occupies p ∨ layer.occupies p)) ∨
      (¬ (outranked below prev ∨ layer.looksDifferent old = true) ∧ layer.damages p))

/-- The point may have changed from the older frame to the newer one. -/
def Frame.changed (newer older : Frame) (p : Point) : Prop :=
  (∃ (rank : Nat) (layer : Layer), newer.layers[rank]? = some layer ∧
    layer.changes older (newer.layers.take rank) p) ∨
    ∃ old ∈ older.layers, old.nextRank = none ∧ old.occupies p

/-- The links of the newer frame lead to layers of the older one. -/
def Frame.linksInto (newer older : Frame) : Prop :=
  ∀ layer ∈ newer.layers, ∀ prev, layer.prevRank = some prev → prev < older.layers.length

namespace ChangeSweep

variable {older : Frame} {below : List Layer} {s : ChangeSweep} {layer : Layer}

/-- The sweep has left the layers behind: its area is a solid one, and its highest rank is theirs. -/
structure Behind (below : List Layer) (s : ChangeSweep) : Prop where
  solid : s.area.Solid
  highest : ∀ prev, s.highest.any (fun highest => decide (prev < highest)) = true ↔ outranked below prev

theorem behind_nil (h : area.Solid) : Behind [] { area } := by
  refine ⟨h, fun prev => ?_⟩
  simp [outranked]

/-- What one layer adds. -/
theorem Behind.visit (hs : Behind below s)
    (hlinks : ∀ prev, layer.prevRank = some prev → prev < older.layers.length) :
    ∃ s', ChangeSweep.visit older s layer = .ok s' ∧ Behind (below ++ [layer]) s' ∧
      ∀ p, s'.area.covers p ↔ s.area.covers p ∨ layer.changes older below p := by
  have hsnoc (prev : Nat) : outranked (below ++ [layer]) prev ↔
      outranked below prev ∨ ∃ rank, layer.prevRank = some rank ∧ prev < rank := by
    simp only [outranked, List.mem_append, List.mem_singleton, or_and_right, exists_or, exists_eq_left]
  unfold ChangeSweep.visit Layer.changes
  cases hprev : layer.prevRank with
  | none =>
    refine ⟨_, rfl, ⟨layer.solid_addExtent hs.solid, fun prev => ?_⟩, fun p => ?_⟩
    · rw [hsnoc, hprev]
      simpa using hs.highest prev
    · exact layer.covers_addExtent hs.solid
  | some rank =>
    obtain ⟨old, hold⟩ : ∃ old, older.layers[rank]? = some old :=
      ⟨_, List.getElem?_eq_getElem (hlinks rank hprev)⟩
    have hlayer : older.layer rank = .ok old := Frame.layer_eq_ok_iff.mpr hold
    have hany : ∀ prev, (some (s.highest.elim rank (max · rank))).any
        (fun highest => decide (prev < highest)) = true ↔ outranked (below ++ [layer]) prev := by
      intro prev
      rw [hsnoc, hprev, ← hs.highest prev]
      cases s.highest with
      | none => simp
      | some highest => simp
    simp only [hlayer, ok_bind, pure_eq_ok, hold, Option.some.injEq, exists_eq_left']
    cases hmoved : s.highest.any (fun highest => decide (rank < highest)) || layer.looksDifferent old with
    | true =>
      -- raised or different: both extents
      have hcase : outranked below rank ∨ layer.looksDifferent old = true := by
        rw [Bool.or_eq_true, hs.highest] at hmoved
        exact hmoved
      refine ⟨_, rfl, ⟨layer.solid_addExtent (old.solid_addExtent hs.solid), hany⟩, fun p => ?_⟩
      show (layer.addExtent (old.addExtent s.area)).covers p ↔ _
      rw [layer.covers_addExtent (old.solid_addExtent hs.solid), old.covers_addExtent hs.solid]
      tauto
    | false =>
      -- in place and alike: the damage of its content
      have hcase : ¬ (outranked below rank ∨ layer.looksDifferent old = true) := by
        rw [← hs.highest, ← Bool.or_eq_true, hmoved]
        exact Bool.false_ne_true
      obtain ⟨hsolid, hcovers⟩ := Region.foldl_add_spec layer.damaged.rects hs.solid
      refine ⟨_, rfl, ⟨hsolid, hany⟩, fun p => ?_⟩
      show (s.area.union layer.damaged).covers p ↔ _
      rw [Region.union, hcovers p]
      unfold Layer.damages
      tauto

/-- What the rest of the layers add, from any layers left behind. -/
theorem Behind.foldlM (rest : List Layer) (hs : Behind below s)
    (hlinks : ∀ layer ∈ rest, ∀ prev, layer.prevRank = some prev → prev < older.layers.length) :
    ∃ s', rest.foldlM (ChangeSweep.visit older) s = .ok s' ∧ s'.area.Solid ∧
      ∀ p, s'.area.covers p ↔ s.area.covers p ∨
        ∃ (rank : Nat) (layer : Layer), rest[rank]? = some layer ∧
          layer.changes older (below ++ rest.take rank) p := by
  -- what a layer adds depends on those beneath it, so the layers left behind grow with the induction
  induction rest generalizing below s with
  | nil => exact ⟨s, rfl, hs.solid, by simp⟩
  | cons layer rest ih =>
    obtain ⟨hfirst, hrest⟩ := List.forall_mem_cons.mp hlinks
    obtain ⟨mid, hmid, hsmid, hcovers⟩ := hs.visit hfirst
    obtain ⟨s', hok, hsolid, hcovers'⟩ := ih hsmid hrest
    refine ⟨s', ?_, hsolid, fun p => ?_⟩
    · rw [List.foldlM_cons, hmid, ok_bind, hok]
    · rw [hcovers' p, hcovers p, or_assoc]
      refine or_congr_right ?_
      constructor
      · rintro (hp | ⟨rank, l, hl, hp⟩)
        · exact ⟨0, layer, rfl, by simpa using hp⟩
        · exact ⟨rank + 1, l, hl, by simpa using hp⟩
      · rintro ⟨rank, l, hl, hp⟩
        cases rank with
        | zero =>
          cases hl
          exact Or.inl (by simpa using hp)
        | succ rank => exact Or.inr ⟨rank, l, hl, by simpa using hp⟩

end ChangeSweep

theorem addVanished_spec (older : Frame) (h : area.Solid) :
    (addVanished older area).Solid ∧ ∀ p, (addVanished older area).covers p ↔
      area.covers p ∨ ∃ old ∈ older.layers, old.nextRank = none ∧ old.occupies p := by
  unfold addVanished
  generalize older.layers = layers
  induction layers generalizing area with
  | nil => exact ⟨h, by simp⟩
  | cons old layers ih =>
    rw [List.foldl_cons]
    cases hnext : old.nextRank with
    | none =>
      obtain ⟨hsolid, hcovers⟩ := ih (old.solid_addExtent h)
      refine ⟨by simpa using hsolid, fun p => ?_⟩
      have := hcovers p
      rw [old.covers_addExtent h] at this
      simpa [hnext, or_assoc] using this
    | some next =>
      obtain ⟨hsolid, hcovers⟩ := ih h
      refine ⟨by simpa using hsolid, fun p => ?_⟩
      simpa [hnext] using hcovers p

/-- The area between two frames is what may have changed. -/
theorem changesBetween_spec {newer older : Frame} (h : area.Solid) (hlinks : newer.linksInto older) :
    ∃ area', changesBetween newer older area = .ok area' ∧ area'.Solid ∧
      ∀ p, area'.covers p ↔ area.covers p ∨ newer.changed older p := by
  obtain ⟨s, hok, hsolid, hcovers⟩ := (ChangeSweep.behind_nil h).foldlM newer.layers hlinks
  obtain ⟨hsolid', hcovers'⟩ := addVanished_spec older hsolid
  refine ⟨_, ?_, hsolid', fun p => ?_⟩
  · rw [changesBetween, hok]
    rfl
  · rw [hcovers' p, hcovers p, or_assoc]
    simp only [List.nil_append]
    exact Iff.rfl

/-! ## Blur -/

/-- A blur spreads an area and loses no point of it. -/
theorem spreadInto_spec (layer : Layer) (dx dy : Coord) (h : area.Solid) :
    (spreadInto layer dx dy area).Solid ∧ ∀ p, area.covers p → (spreadInto layer dx dy area).covers p := by
  by_cases hnear : area.touches (layer.bounds.grow dx dy) = true
  · simp only [spreadInto, if_pos hnear]
    have hspec := Region.foldl_add_spec (((area.clip (layer.bounds.grow dx dy)).rects).map
      (fun rect => (rect.grow dx dy).meet layer.bounds)) h
    rw [List.foldl_map] at hspec
    exact ⟨hspec.1, fun p hp => (hspec.2 p).mpr (Or.inl hp)⟩
  · simp only [spreadInto, if_neg hnear]
    exact ⟨h, fun p hp => hp⟩

theorem spreadBlur_spec (layers : List Layer) (blur : Size) (h : area.Solid) :
    (spreadBlur layers blur area).Solid ∧ ∀ p, area.covers p → (spreadBlur layers blur area).covers p := by
  by_cases hnone : ((max blur.width 0).agrees 0 && (max blur.height 0).agrees 0) = true
  · simp only [spreadBlur, if_pos hnone]
    exact ⟨h, fun p hp => hp⟩
  · simp only [spreadBlur, if_neg hnone]
    induction layers generalizing area with
    | nil => exact ⟨h, fun p hp => hp⟩
    | cons layer layers ih =>
      rw [List.foldl_cons]
      cases hblurs : layer.blurs with
      | true =>
        obtain ⟨hsolid, hmore⟩ := spreadInto_spec layer (max blur.width 0) (max blur.height 0) h
        obtain ⟨hsolid', hmore'⟩ := ih hsolid
        rw [if_pos rfl]
        exact ⟨hsolid', fun p hp => hmore' p (hmore p hp)⟩
      | false =>
        rw [if_neg Bool.false_ne_true]
        exact ih h

/-! ## The whole span -/

namespace History

variable {h : History}

/-- The links of every frame lead to layers of the frame before. -/
def LinksInto (h : History) : Prop :=
  ∀ age, age < h.maxAge → (h.frames.get age).linksInto (h.frames.get (age + 1))

theorem changesSince_spec (hlinks : h.LinksInto) :
    ∀ age, age ≤ h.maxAge → ∃ area, h.changesSince age = .ok area ∧ area.Solid ∧
      ∀ p, area.covers p ↔ ∃ i < age, (h.frames.get i).changed (h.frames.get (i + 1)) p := by
  intro age
  induction age with
  | zero =>
    intro _
    exact ⟨Region.empty, rfl, Region.solid_empty, by simp⟩
  | succ age ih =>
    intro hage
    obtain ⟨mid, hmid, hsolid, hcovers⟩ := ih (by omega)
    obtain ⟨area, hok, hsolid', hcovers'⟩ := changesBetween_spec hsolid (hlinks age hage)
    refine ⟨area, ?_, hsolid', fun p => ?_⟩
    · rw [changesSince, List.range_succ, List.foldlM_append]
      show h.changesSince age >>= _ = _
      rw [hmid, ok_bind, List.foldlM_cons, hok]
      rfl
    · rw [hcovers' p, hcovers p]
      simp only [Nat.lt_succ_iff_lt_or_eq, or_and_right, exists_or, exists_eq_left]

/-- What a damage query answers when `changes` is what has changed. -/
def repainted (h : History) (age : Nat) (blur : Size) (changes : Region) : Region :=
  if h.lostSince age then Region.ofRect h.newest.bounds
  else (spreadBlur h.newest.layers blur changes).clip h.newest.bounds

theorem solid_repainted {age : Nat} {changes : Region} (blur : Size) : (h.repainted age blur changes).Solid := by
  unfold repainted
  split
  · exact Region.solid_ofRect _
  · exact Region.solid_clip

/-- A damage query of an age that is kept is answered. -/
theorem repaintArea_ok {age : Nat} {changes : Region} (hage : age ≤ h.maxAge)
    (hok : h.changesSince age = .ok changes) (blur : Size) :
    h.repaintArea age blur = .ok (⟨h.pushes, age, h.lostSince age,
      (h.repainted age blur changes).rects.length⟩, h.repainted age blur changes) := by
  have hcheck : h.checkAge age = .ok () := if_pos hage
  cases hlost : h.lostSince age with
  | true =>
    simp only [repaintArea, repainted, hcheck, hlost, ok_bind, if_true]
    rfl
  | false =>
    simp only [repaintArea, repainted, hcheck, hlost, ok_bind, hok, Bool.false_eq_true, if_false]
    rfl

/-- Unless the whole screen is to be repainted, no point of it that the changes spread to is left out. -/
theorem covers_repainted_of_spread {age : Nat} {changes : Region} (hlost : h.lostSince age = false)
    (hsolid : changes.Solid) (blur : Size) (hscreen : h.newest.bounds.covers p)
    (hp : (spreadBlur h.newest.layers blur changes).covers p) : (h.repainted age blur changes).covers p := by
  have hsolid' := (spreadBlur_spec h.newest.layers blur hsolid).1
  rw [repainted, if_neg (by simp [hlost]), Region.covers_clip hsolid'.numeric hscreen.normalize.numeric]
  exact ⟨hp, hscreen.normalize⟩

theorem covers_repainted {age : Nat} {changes : Region} (hlost : h.lostSince age = false)
    (hsolid : changes.Solid) (blur : Size) (hscreen : h.newest.bounds.covers p) (hp : changes.covers p) :
    (h.repainted age blur changes).covers p :=
  covers_repainted_of_spread hlost hsolid blur hscreen
    ((spreadBlur_spec h.newest.layers blur hsolid).2 p hp)

end History

end Repaint
