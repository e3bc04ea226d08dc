import Repaint.Proofs.History.Damage
import Repaint.Proofs.History.Links
import Mathlib.Data.List.Sort
import Mathlib.Data.List.Forall2

/-!
# A damage query leaves no stale point

A point that a damage query leaves out shows the same in the newest frame as in the old one: the same windows
stand there in the same order, they look alike, and none of them was damaged there in between.

* **one step** — where nothing has changed between two linked frames, every layer of the newer frame at the
  point has its like in the older one and the other way round (`Linked.like_of_not_changed`,
  `Linked.like_of_not_changed_older`), and the order is the same, because the sweep would have met a higher
  older rank before (`Linked.pairwise_before`);
* **the span** — being alike is transitive (`Frame.AlikeOn.trans`), so the steps add up
  (`History.alikeOn_of_not_changed`).

The order is kept on the whole of the unchanged points, not only at each of them: two windows that stand far apart
there have not changed places either (`Frame.AlikeOn`).
-/

namespace Repaint

variable {p : Point}

/-! ## Layers that look alike -/

namespace Vec

theorem eq_of_agrees {a b : Vec} (h : a.agrees b = true) : a = b := by
  obtain ⟨ax, ay⟩ := a
  obtain ⟨bx, byy⟩ := b
  simp only [agrees, Bool.and_eq_true] at h
  rw [Binary.eq_of_agrees h.1, Binary.eq_of_agrees h.2]

end Vec

theorem Size.eq_of_agrees {a b : Size} (h : a.agrees b = true) : a = b := by
  obtain ⟨aw, ah⟩ := a
  obtain ⟨bw, bh⟩ := b
  simp only [agrees, Bool.and_eq_true] at h
  rw [Binary.eq_of_agrees h.1, Binary.eq_of_agrees h.2]

namespace Layer

variable {a b c : Layer}

/-- The layer with nothing but its looks. -/
def looks (l : Layer) : Layer :=
  { origin := l.origin, size := l.size, shadowOrigin := l.shadowOrigin, shadowSize := l.shadowSize,
    opacity := l.opacity, blurOpacity := l.blurOpacity, isOpaque := l.isOpaque, isClipping := l.isClipping }

theorem looks_eq (h : a.looksDifferent b = false) : a.looks = b.looks := by
  simp only [looksDifferent, Bool.or_eq_false_iff, Bool.not_eq_false', bne_eq_false_iff_eq] at h
  obtain ⟨⟨⟨⟨⟨⟨⟨horigin, hsize⟩, hshadow⟩, hshadowSize⟩, hopacity⟩, hblur⟩, hopaque⟩, hclipping⟩ := h
  rw [looks, looks, Vec.eq_of_agrees horigin, Size.eq_of_agrees hsize, Vec.eq_of_agrees hshadow,
    Size.eq_of_agrees hshadowSize, Binary.eq_of_agrees hopacity, Binary.eq_of_agrees hblur, hopaque,
    hclipping]

/-- Looks decide where a layer is, and what it looks different from. -/
theorem occupies_congr (h : a.looksDifferent b = false) : a.occupies p ↔ b.occupies p := by
  show a.looks.occupies p ↔ b.looks.occupies p
  rw [looks_eq h]

theorem looksDifferent_congr (h : a.looksDifferent b = false) (c : Layer) :
    a.looksDifferent c = b.looksDifferent c := by
  show a.looks.looksDifferent c = b.looks.looksDifferent c
  rw [looks_eq h]

end Layer

/-! ## Frames that are alike -/

namespace Frame

open Classical in
/-- The layers whose bounds or shadow cover the point, bottom to top. -/
noncomputable def layersAt (f : Frame) (p : Point) : List Layer :=
  f.layers.filter (fun layer => layer.occupies p)

/-- The same windows stand at the point in the same order, and none looks different. -/
def AlikeAt (newer older : Frame) (p : Point) : Prop :=
  List.Forall₂ (fun new old => new.key = old.key ∧ new.looksDifferent old = false)
    (newer.layersAt p) (older.layersAt p)

open Classical in
/-- The layers whose bounds or shadow cover one of the points, bottom to top. -/
noncomputable def layersOn (f : Frame) (s : Set Point) : List Layer :=
  f.layers.filter (fun layer => ∃ p ∈ s, layer.occupies p)

/-- The same windows stand on the points in the same order, and none looks different. -/
def AlikeOn (newer older : Frame) (s : Set Point) : Prop :=
  List.Forall₂ (fun new old => new.key = old.key ∧ new.looksDifferent old = false)
    (newer.layersOn s) (older.layersOn s)

variable {f newer older : Frame} {s : Set Point}

theorem mem_layersAt {layer : Layer} : layer ∈ f.layersAt p ↔ layer ∈ f.layers ∧ layer.occupies p := by
  simp [layersAt]

theorem mem_layersOn {layer : Layer} :
    layer ∈ f.layersOn s ↔ layer ∈ f.layers ∧ ∃ p ∈ s, layer.occupies p := by
  simp [layersOn]

theorem layersOn_singleton (f : Frame) (p : Point) : f.layersOn {p} = f.layersAt p := by
  refine List.filter_congr fun layer _ => decide_eq_decide.mpr ?_
  exact exists_eq_left

theorem alikeOn_singleton : newer.AlikeOn older {p} ↔ newer.AlikeAt older p := by
  rw [AlikeOn, AlikeAt, layersOn_singleton, layersOn_singleton]

theorem AlikeAt.keys_eq (h : newer.AlikeAt older p) :
    (newer.layersAt p).map Layer.key = (older.layersAt p).map Layer.key := by
  rw [← List.forall₂_eq_eq_eq, List.forall₂_map_left_iff, List.forall₂_map_right_iff]
  exact List.Forall₂.imp (fun _ _ hlike => hlike.1) h

theorem AlikeOn.trans {oldest : Frame} (h : newer.AlikeOn older s) (h' : older.AlikeOn oldest s) :
    newer.AlikeOn oldest s := by
  unfold AlikeOn at h h' ⊢
  generalize newer.layersOn s = news at h ⊢
  generalize older.layersOn s = mids at h h'
  generalize oldest.layersOn s = olds at h' ⊢
  induction h generalizing olds with
  | nil =>
    cases h'
    exact List.Forall₂.nil
  | cons hlike _ ih =>
    cases h' with
    | cons hlike' hrest =>
      refine List.Forall₂.cons ⟨hlike.1.trans hlike'.1, ?_⟩ (ih _ hrest)
      rw [Layer.looksDifferent_congr hlike.2]
      exact hlike'.2

/-- The one key stands beneath the other. -/
def Before (f : Frame) (key key' : Key) : Prop :=
  ∃ rank rank', f.find? key = some rank ∧ f.find? key' = some rank' ∧ rank < rank'

theorem not_before_self (f : Frame) (key : Key) : ¬ f.Before key key := by
  rintro ⟨rank, rank', hrank, hrank', hlt⟩
  rw [hrank] at hrank'
  cases hrank'
  exact Nat.lt_irrefl _ hlt

theorem Before.not_symm {key key' : Key} (h : f.Before key key') : ¬ f.Before key' key := by
  obtain ⟨rank, rank', hrank, hrank', hlt⟩ := h
  rintro ⟨other, other', hother, hother', hgt⟩
  rw [hrank] at hother'
  rw [hrank'] at hother
  cases hother
  cases hother'
  omega

instance (f : Frame) : Std.Irrefl f.Before := ⟨f.not_before_self⟩

instance (f : Frame) : Std.Antisymm f.Before := ⟨fun _ _ h h' => absurd h' h.not_symm⟩

/-- Going up through a frame without double keys goes up through its keys. -/
theorem Distinct.pairwise_before (h : f.Distinct) (s : Set Point) :
    ((f.layersOn s).map Layer.key).Pairwise f.Before := by
  refine List.Pairwise.sublist (List.filter_sublist.map _) ?_
  rw [List.pairwise_map, List.pairwise_iff_getElem]
  intro low high hlow hhigh hlt
  exact ⟨low, high, h.find?_eq_some_iff.mpr ⟨_, List.getElem?_eq_getElem hlow, rfl⟩,
    h.find?_eq_some_iff.mpr ⟨_, List.getElem?_eq_getElem hhigh, rfl⟩, hlt⟩

end Frame

/-! ## One step -/

namespace Linked

variable {newer older : Frame} {layer old : Layer} {rank prev : Nat} {s : Set Point}

/-- Where nothing has changed, a layer of the newer frame has its like in the older one; nothing beneath it
was above it, and its content was not damaged. -/
theorem like_of_not_changed (h : Linked newer older) (hp : ¬ newer.changed older p)
    (hlayer : newer.layers[rank]? = some layer) (hoccupies : layer.occupies p) :
    ∃ prev old, layer.prevRank = some prev ∧ older.layers[prev]? = some old ∧ layer.key = old.key ∧
      layer.looksDifferent old = false ∧ ¬ outranked (newer.layers.take rank) prev ∧
      ¬ layer.damages p := by
  have hsame : ¬ layer.changes older (newer.layers.take rank) p :=
    fun hchanges => hp (Or.inl ⟨rank, layer, hlayer, hchanges⟩)
  unfold Layer.changes at hsame
  cases hprev : layer.prevRank with
  | none =>
    rw [hprev] at hsame
    exact absurd hoccupies hsame
  | some prev =>
    rw [hprev] at hsame
    have htop := h.prev layer (List.mem_of_getElem? hlayer)
    rw [hprev] at htop
    obtain ⟨⟨old, hold, hkey⟩, _⟩ := topRank?_eq_some_iff.mp htop.symm
    have hstill : ¬ (outranked (newer.layers.take rank) prev ∨ layer.looksDifferent old = true) :=
      fun hmoved => hsame ⟨old, hold, Or.inl ⟨hmoved, Or.inr hoccupies⟩⟩
    have hintact : ¬ layer.damages p :=
      fun hdamages => hsame ⟨old, hold, Or.inr ⟨hstill, hdamages⟩⟩
    rw [not_or, Bool.not_eq_true] at hstill
    exact ⟨prev, old, rfl, hold, hkey.symm, hstill.2, hstill.1, hintact⟩

/-- Where nothing has changed, a layer of the older frame has its like in the newer one. -/
theorem like_of_not_changed_older (h : Linked newer older) (hn : newer.Distinct) (ho : older.Distinct)
    (hp : ¬ newer.changed older p) (hold : older.layers[prev]? = some old) (hoccupies : old.occupies p) :
    ∃ (rank : Nat) (layer : Layer), newer.layers[rank]? = some layer ∧ layer.key = old.key ∧
      layer.occupies p := by
  cases hnext : old.nextRank with
  | none => exact absurd (Or.inr ⟨old, List.mem_of_getElem? hold, hnext, hoccupies⟩) hp
  | some rank =>
    obtain ⟨layer, hlayer, hprev⟩ := (h.prev_iff_next hn ho).mpr ⟨old, hold, hnext⟩
    have hkey : layer.key = old.key := by
      have hfind := h.prev_eq_find? ho layer (List.mem_of_getElem? hlayer)
      rw [hprev, eq_comm, ho.find?_eq_some_iff] at hfind
      obtain ⟨other, hother, hkey⟩ := hfind
      rw [hold] at hother
      cases hother
      exact hkey.symm
    refine ⟨rank, layer, hlayer, hkey, ?_⟩
    -- a layer that moved here from the point would have brought its old extent along
    have hstill : ¬ (outranked (newer.layers.take rank) prev ∨ layer.looksDifferent old = true) := by
      intro hmoved
      refine hp (Or.inl ⟨rank, layer, hlayer, ?_⟩)
      rw [Layer.changes, hprev]
      exact ⟨old, hold, Or.inl ⟨hmoved, Or.inl hoccupies⟩⟩
    rw [not_or, Bool.not_eq_true] at hstill
    exact (Layer.occupies_congr hstill.2).mpr hoccupies

/-- Where nothing has changed, the layers of the newer frame stand in the order of the older one. -/
theorem pairwise_before (h : Linked newer older) (hn : newer.Distinct) (ho : older.Distinct)
    (hs : ∀ p ∈ s, ¬ newer.changed older p) : ((newer.layersOn s).map Layer.key).Pairwise older.Before := by
  rw [List.pairwise_map, Frame.layersOn, List.pairwise_filter, List.pairwise_iff_getElem]
  intro low high hlow hhigh hlt hoccLow hoccHigh
  simp only [decide_eq_true_eq] at hoccLow hoccHigh
  obtain ⟨p, hp, hoccLow⟩ := hoccLow
  obtain ⟨q, hq, hoccHigh⟩ := hoccHigh
  have hgetLow := List.getElem?_eq_getElem hlow
  have hgetHigh := List.getElem?_eq_getElem hhigh
  obtain ⟨i, a, hi, ha, hkeyLow, _⟩ := h.like_of_not_changed (hs p hp) hgetLow hoccLow
  obtain ⟨j, b, hj, hb, hkeyHigh, _, hrank, _⟩ :=
    h.like_of_not_changed (hs q hq) hgetHigh hoccHigh
  refine ⟨i, j, ho.find?_eq_some_iff.mpr ⟨a, ha, hkeyLow.symm⟩,
    ho.find?_eq_some_iff.mpr ⟨b, hb, hkeyHigh.symm⟩, ?_⟩
  -- the lower layer was met before, so its older rank is not above; nor are the two the same
  have hmem : newer.layers[low] ∈ newer.layers.take high := by
    rw [List.mem_take_iff_getElem]
    exact ⟨low, by omega, rfl⟩
  have hle : i ≤ j := by
    by_contra hgt
    exact hrank ⟨newer.layers[low], hmem, i, hi, by omega⟩
  have hne : i ≠ j := by
    intro heq
    subst heq
    rw [ha] at hb
    cases hb
    have := hn.rank_unique hgetLow hgetHigh (hkeyLow.trans hkeyHigh.symm)
    omega
  omega

/-- Where nothing has changed, the same keys stand in the same order. -/
theorem keys_eq (h : Linked newer older) (hn : newer.Distinct) (ho : older.Distinct)
    (hs : ∀ p ∈ s, ¬ newer.changed older p) :
    (newer.layersOn s).map Layer.key = (older.layersOn s).map Layer.key := by
  refine (h.pairwise_before hn ho hs).eq_of_mem_iff (ho.pairwise_before s) fun key => ?_
  rw [List.mem_map, List.mem_map]
  constructor
  · rintro ⟨layer, hlayer, rfl⟩
    obtain ⟨hmem, p, hp, hoccupies⟩ := Frame.mem_layersOn.mp hlayer
    obtain ⟨rank, hrank⟩ := List.mem_iff_getElem?.mp hmem
    obtain ⟨prev, old, _, hold, hkey, hlike, _⟩ := h.like_of_not_changed (hs p hp) hrank hoccupies
    refine ⟨old, Frame.mem_layersOn.mpr ⟨List.mem_of_getElem? hold, p, hp, ?_⟩, hkey.symm⟩
    exact (Layer.occupies_congr hlike).mp hoccupies
  · rintro ⟨old, hold, rfl⟩
    obtain ⟨hmem, p, hp, hoccupies⟩ := Frame.mem_layersOn.mp hold
    obtain ⟨prev, hprev⟩ := List.mem_iff_getElem?.mp hmem
    obtain ⟨rank, layer, hlayer, hkey, hocc⟩ :=
      h.like_of_not_changed_older hn ho (hs p hp) hprev hoccupies
    exact ⟨layer, Frame.mem_layersOn.mpr ⟨List.mem_of_getElem? hlayer, p, hp, hocc⟩, hkey⟩

/-- **One step.** Where nothing has changed, the two frames are alike. -/
theorem alikeOn (h : Linked newer older) (hn : newer.Distinct) (ho : older.Distinct)
    (hs : ∀ p ∈ s, ¬ newer.changed older p) : newer.AlikeOn older s := by
  have hkeys := h.keys_eq hn ho hs
  rw [← List.forall₂_eq_eq_eq, List.forall₂_map_left_iff, List.forall₂_map_right_iff,
    List.forall₂_iff_zip] at hkeys
  refine List.forall₂_iff_zip.mpr ⟨hkeys.1, fun {layer old} hpair => ?_⟩
  have hkey : layer.key = old.key := hkeys.2 hpair
  refine ⟨hkey, ?_⟩
  -- the like of the layer has the key of its partner, so it is its partner
  obtain ⟨hlayer, hold⟩ := List.of_mem_zip hpair
  obtain ⟨hmem, p, hp, hoccupies⟩ := Frame.mem_layersOn.mp hlayer
  obtain ⟨rank, hrank⟩ := List.mem_iff_getElem?.mp hmem
  obtain ⟨prev, like, _, hlike, hkey', hsame, _⟩ := h.like_of_not_changed (hs p hp) hrank hoccupies
  rwa [← ho.layer_unique (List.mem_of_getElem? hlike) (Frame.mem_layersOn.mp hold).1
    (hkey'.symm.trans hkey)]

end Linked

/-! ## The span -/

namespace History

variable {config : Config} {actions : List Action} {h : History} {height age : Nat} {s : Set Point}

theorem Consistent.linksInto (hc : h.Consistent height) : h.LinksInto := by
  intro age hage layer hlayer prev hprev
  have hcapacity := hc.capacity_eq
  exact (hc.linked age (by omega)).prev_lt hlayer hprev

/-- Where nothing has changed in a span, the newest frame is like the oldest one of the span. -/
theorem alikeOn_of_not_changed (hc : h.Consistent height) (hkeys : h.KeysDistinct) (hpos : 1 ≤ age)
    (hage : age < h.capacity)
    (hs : ∀ i < age, ∀ p ∈ s, ¬ (h.frames.get i).changed (h.frames.get (i + 1)) p) :
    h.newest.AlikeOn (h.frames.get age) s := by
  have hstep (i : Nat) (hi : i < age) : (h.frames.get i).AlikeOn (h.frames.get (i + 1)) s :=
    (hc.linked i (by omega)).alikeOn (hkeys i (by omega)) (hkeys (i + 1) (by omega)) (hs i hi)
  -- a frame need not be like itself, so the induction starts with the first step
  induction age, hpos using Nat.le_induction with
  | base => exact hstep 0 (by omega)
  | succ age hpos ih =>
    have hrest := ih (by omega) (fun i hi => hs i (by omega)) (fun i hi => hstep i (by omega))
    exact hrest.trans (hstep age (by omega))

theorem alikeAt_of_not_changed (hc : h.Consistent height) (hkeys : h.KeysDistinct) (hpos : 1 ≤ age)
    (hage : age < h.capacity)
    (hp : ∀ i < age, ¬ (h.frames.get i).changed (h.frames.get (i + 1)) p) :
    h.newest.AlikeAt (h.frames.get age) p := by
  rw [← Frame.alikeOn_singleton]
  apply alikeOn_of_not_changed hc hkeys hpos hage
  intro i hi q hq
  rw [Set.mem_singleton_iff.mp hq]
  exact hp i hi

/-- Where nothing has changed in a span, a window that stands there was there in every frame of the span, came
from the frame before and was not damaged there. -/
theorem undamaged_of_not_changed (hc : h.Consistent height) (hkeys : h.KeysDistinct)
    (hage : age < h.capacity)
    (hp : ∀ i < age, ¬ (h.frames.get i).changed (h.frames.get (i + 1)) p) {i : Nat} (hi : i < age)
    {key : Key} (hkey : key ∈ (h.newest.layersAt p).map Layer.key) :
    ∃ layer ∈ (h.frames.get i).layers, layer.key = key ∧ layer.prevRank ≠ none ∧ ¬ layer.damages p := by
  have hhere : key ∈ ((h.frames.get i).layersAt p).map Layer.key := by
    rcases Nat.eq_zero_or_pos i with rfl | hpos
    · exact hkey
    · rwa [← (alikeAt_of_not_changed hc hkeys hpos (by omega) (fun j hj => hp j (by omega))).keys_eq]
  obtain ⟨layer, hlayer, rfl⟩ := List.mem_map.mp hhere
  obtain ⟨hmem, hoccupies⟩ := Frame.mem_layersAt.mp hlayer
  obtain ⟨rank, hrank⟩ := List.mem_iff_getElem?.mp hmem
  obtain ⟨prev, _, hprev, _, _, _, _, hintact⟩ :=
    (hc.linked i (by omega)).like_of_not_changed (hp i hi) hrank hoccupies
  refine ⟨layer, hmem, rfl, ?_, hintact⟩
  rw [hprev]
  exact Option.some_ne_none prev

theorem not_damages_of_not_changed (hc : h.Consistent height) (hkeys : h.KeysDistinct)
    (hage : age < h.capacity)
    (hp : ∀ i < age, ¬ (h.frames.get i).changed (h.frames.get (i + 1)) p) {i : Nat} (hi : i < age)
    {layer : Layer} (hlayer : layer ∈ (h.frames.get i).layers)
    (hkey : layer.key ∈ (h.newest.layersAt p).map Layer.key) : ¬ layer.damages p := by
  obtain ⟨other, hmem, heq, _, hintact⟩ := undamaged_of_not_changed hc hkeys hage hp hi hkey
  rwa [← (hkeys i (by omega)).layer_unique hmem hlayer heq]

/-- **No stale point.** After every run in which no push seats one key twice, a damage query of an age that is
kept is answered, whatever the blur. Unless it asks for the whole screen, every point of the screen that it
leaves out shows the same windows in the same order as in the frame of that age. None of them looks different,
and in no frame of the span was one of them damaged there. -/
theorem repaintArea_leaves_nothing_stale (hrun : replay config actions = .ok h)
    (hdistinct : ∀ action ∈ actions, action.Distinct) (hpos : 1 ≤ age) (hage : age ≤ config.maxAge)
    (blur : Size) :
    ∃ report area oldest, h.repaintArea age blur = .ok (report, area) ∧ h.frame age = .ok oldest ∧
      (report.full = false → ∀ p, h.newest.bounds.covers p → ¬ area.covers p →
        h.newest.AlikeAt oldest p ∧
        ∀ i < age, ∀ between, h.frame i = .ok between → ∀ layer ∈ between.layers,
          layer.key ∈ (h.newest.layersAt p).map Layer.key → ¬ layer.damaged.covers p) := by
  obtain ⟨hc, hmaxAge⟩ := consistent_of_replay hrun
  have hkeys := keysDistinct_of_replay hrun hdistinct
  rw [← hmaxAge] at hage
  have hcapacity : age < h.capacity := by
    rw [hc.capacity_eq]
    omega
  obtain ⟨changes, hok, hsolid, hcovers⟩ := changesSince_spec hc.linksInto age hage
  refine ⟨_, _, _, repaintArea_ok hage hok blur, frame_eq_ok hage, fun hfull p hscreen hout => ?_⟩
  have hp : ∀ i < age, ¬ (h.frames.get i).changed (h.frames.get (i + 1)) p := by
    intro i hi hchanged
    exact hout (covers_repainted hfull hsolid blur hscreen ((hcovers p).mpr ⟨i, hi, hchanged⟩))
  refine ⟨alikeAt_of_not_changed hc hkeys hpos hcapacity hp, fun i hi between hbetween => ?_⟩
  rw [frame_eq_ok (by omega)] at hbetween
  cases hbetween
  rintro layer hlayer hkey ⟨rect, hrect, hdamaged⟩
  exact not_damages_of_not_changed hc hkeys hcapacity hp hi hlayer hkey ⟨rect, hrect, hdamaged.normalize⟩

theorem repaintArea_of_sampleRun :
    ∃ h report area oldest, replay {} sampleRun = .ok h ∧
      h.repaintArea 2 ⟨Binary.ofInt 1, Binary.ofInt 1⟩ = .ok (report, area) ∧ report.full = false ∧
      h.frame 2 = .ok oldest ∧
      ∀ p, h.newest.bounds.covers p → ¬ area.covers p → h.newest.AlikeAt oldest p := by
  obtain ⟨h, hrun⟩ := replay_sampleRun {} (by decide)
  obtain ⟨report, area, oldest, hok, holdest, hfresh⟩ := repaintArea_leaves_nothing_stale hrun
    (by decide +kernel) (show 1 ≤ 2 by decide) (by decide) ⟨Binary.ofInt 1, Binary.ofInt 1⟩
  have hfull : (replay {} sampleRun >>= fun h => h.repaintArea 2 ⟨Binary.ofInt 1, Binary.ofInt 1⟩).map
      (fun result => result.1.full) = .ok false := by decide +kernel
  rw [hrun, ok_bind, hok] at hfull
  cases hfull' : report.full with
  | true =>
    rw [Except.map, hfull'] at hfull
    cases hfull
  | false =>
    exact ⟨h, report, area, oldest, hrun, hok, hfull', holdest, fun p hscreen hout =>
      (hfresh hfull' p hscreen hout).1⟩

end History

end Repaint
