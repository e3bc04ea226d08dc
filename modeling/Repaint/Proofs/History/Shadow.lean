import Repaint.Proofs.History.Culling
import Repaint.Proofs.History.Damage

/-!
# Shadows are culled with their windows

A damage query counts a layer's shadow with its bounds (`Layer.occupies`), and an occlusion marking looks at the bounds
alone. What follows from the difference:

* **bounds** — whatever is dirty, and also where edges are not numbers, no layer is passed over that has a dirty
  point in its bounds which no opaque layer further up hides (`Marked.toPaint_of_covers`);
* **shadows** — so what a layer that is passed over would have drawn there is shadow outside of its own bounds
  (`culled_is_shadow`). Such a shadow is lost, in full view, when another window lies upon the window that casts it
  (`shadow_culled_shadowRun`).
-/

namespace Repaint

variable {p : Point}

/-- Who hides what depends on the layers' bounds and on which of them are opaque. -/
theorem Frame.hides_iff {f : Frame} {rank : Nat} : f.hides rank p ↔ ∃ above bounds, rank < above ∧
    (f.layers.map (fun layer => (layer.isOpaque, layer.bounds)))[above]? = some (true, bounds) ∧ bounds.covers p := by
  simp only [hides, List.getElem?_map, Option.map_eq_some_iff, Prod.mk.injEq]
  constructor
  · rintro ⟨above, layer, hlt, hlayer, hopaque, hcovers⟩
    exact ⟨above, layer.bounds, hlt, ⟨layer, hlayer, hopaque, rfl⟩, hcovers⟩
  · rintro ⟨above, _, hlt, ⟨layer, hlayer, hopaque, rfl⟩, hcovers⟩
    exact ⟨above, layer, hlt, hlayer, hopaque, hcovers⟩

namespace History

variable {h h' : History} {stack : List Window} {dirty : Region}

/-- A layer with a dirty point in its bounds that no opaque layer further up hides is painted. -/
theorem Marked.toPaint_of_covers (hm : Marked h dirty h') {rank : Nat} {layer : Layer} (hrank : 1 ≤ rank)
    (hlayer : h'.newest.layers[rank]? = some layer) (hp : dirty.covers p) (hbounds : layer.bounds.covers p)
    (hseen : ¬ h'.newest.hides rank p) : layer.toPaint = true := by
  obtain ⟨place, rfl⟩ : ∃ place, rank = place + 1 := ⟨rank - 1, by omega⟩
  rw [hm.getElem?_succ, getElem?_painted, Option.map_eq_some_iff] at hlayer
  obtain ⟨old, hold, rfl⟩ := hlayer
  rw [Frame.hides_iff, hm.newest, map_marked _ fun _ _ => rfl, ← Frame.hides_iff, Frame.not_hides_iff,
    ← List.drop_tail] at hseen
  rw [Layer.setPaint_toPaint]
  refine Region.touches_of_covers (covers_uncoveredBy_of hp hseen) ?_
  rw [Layer.bounds, Rect.normalize_ofOrigin]
  exact hbounds

variable {config : Config} {actions : List Action}

/-- **What culling drops is shadow.** After every run, mark any dirty area on a stack as high as the last one pushed. A
layer above the bottom one is painted if a dirty point in its bounds is hidden by no opaque layer further up. So of all
that a damage query counts to a layer that is not painted, its bounds and its shadow, the dirty points in view lie in
the shadow and outside of the bounds. -/
theorem culled_is_shadow (hrun : replay config actions = .ok h) (hheight : lastHeight actions ≤ stack.length)
    (dirty : Region) :
    ∃ report h' stack' newest, h.occlude stack dirty = .ok (report, h', stack') ∧ h'.frame 0 = .ok newest ∧
      ∀ rank layer, 1 ≤ rank → newest.layer rank = .ok layer →
        (∀ p, dirty.covers p → layer.bounds.covers p → ¬ newest.hides rank p → layer.toPaint = true) ∧
        (layer.toPaint = false → ∀ p, dirty.covers p → layer.occupies p → ¬ newest.hides rank p →
          layer.shadowBounds.covers p ∧ ¬ layer.bounds.covers p) := by
  obtain ⟨hc, _⟩ := consistent_of_replay hrun
  obtain ⟨h', hok, hm⟩ := hc.occlude_ok hheight dirty
  refine ⟨_, h', _, h'.newest, hok, h'.frame_zero, fun rank layer hrank hlayer => ?_⟩
  have hpaint : ∀ p, dirty.covers p → layer.bounds.covers p → ¬ h'.newest.hides rank p → layer.toPaint = true :=
    fun p hp hbounds hseen => hm.toPaint_of_covers hrank (Frame.layer_eq_ok_iff.mp hlayer) hp hbounds hseen
  refine ⟨hpaint, fun hculled p hp hoccupies hseen => ?_⟩
  have hoff : ¬ layer.bounds.covers p := by
    intro hbounds
    rw [hpaint p hp hbounds hseen] at hculled
    cases hculled
  exact ⟨hoccupies.resolve_left hoff, hoff⟩

end History

/-! ## A shadow that is lost -/

/-- A window upon one at the same place, whose shadow falls to the right of both, before a background. -/
def shadowStack : List Window :=
  [sampleWindow 1 4 8,
    { sampleWindow 2 4 8 with shadow := some ⟨⟨Binary.ofInt 8, 0⟩, ⟨Binary.ofInt 8, Binary.ofInt 8⟩⟩ },
    sampleWindow 3 0 32]

/-- The window with the shadow comes beneath the other one. -/
def shadowRun : List Action :=
  let screen : Size := ⟨Binary.ofInt 32, Binary.ofInt 8⟩
  [.push [sampleWindow 1 4 8, sampleWindow 3 0 32] 7 screen, .push shadowStack 7 screen]

/-- As high as the screen, from one edge to another. -/
def sampleStrip (left right : Int) : Rect := ⟨Binary.ofInt left, 0, Binary.ofInt right, Binary.ofInt 8⟩

namespace History

/-- Half of a window is dirty, and nothing is upon it. -/
theorem culled_is_shadow_shadowRun :
    ∃ h report h' stack' newest layer, replay {} shadowRun = .ok h ∧
      h.occlude shadowStack sampleDirty = .ok (report, h', stack') ∧ h'.frame 0 = .ok newest ∧
      newest.layer 2 = .ok layer ∧ layer.toPaint = true := by
  have hlayers : (replay {} shadowRun).map (fun h => h.newest.layers.map (fun l => (l.isOpaque, l.bounds))) =
      .ok [(true, sampleStrip 0 32), (true, sampleStrip 4 12), (true, sampleStrip 4 12)] := by decide +kernel
  obtain ⟨h, hrun, hlayers⟩ := map_eq_ok_iff.mp hlayers
  obtain ⟨report, h', stack', newest, hok, hnewest, hmarked⟩ :=
    culled_is_shadow hrun (show lastHeight shadowRun ≤ shadowStack.length by decide) sampleDirty
  obtain rfl : h'.newest = newest := Except.ok.inj (h'.frame_zero.symm.trans hnewest)
  have hsame : h'.newest.layers.map (fun l => (l.isOpaque, l.bounds)) =
      [(true, sampleStrip 0 32), (true, sampleStrip 4 12), (true, sampleStrip 4 12)] := by
    rw [(marked_of_occlude hok).newest, map_marked _ fun _ _ => rfl, hlayers]
  have htop := congrArg (·[2]?) hsame
  simp only [List.getElem?_map] at htop
  obtain ⟨layer, hlayer, hlooks⟩ := Option.map_eq_some_iff.mp htop
  obtain ⟨-, hbounds⟩ := Prod.mk.inj hlooks
  -- some dirty point lies in the layer's bounds
  obtain ⟨p, hp, hin⟩ : ∃ p, sampleDirty.covers p ∧ layer.bounds.covers p := by
    have htouches : sampleDirty.touches (sampleStrip 4 12) = true := by decide +kernel
    have hdirty : sampleDirty.Solid := Region.solid_ofRect _
    rw [← hbounds, Region.touches_iff hdirty.numeric, Layer.bounds, Rect.normalize_ofOrigin] at htouches
    exact htouches
  refine ⟨h, report, h', stack', h'.newest, layer, hrun, hok, hnewest, Frame.layer_eq_ok_iff.mpr hlayer, ?_⟩
  refine (hmarked 2 layer (by decide) (Frame.layer_eq_ok_iff.mpr hlayer)).1 p hp hin ?_
  rw [Frame.hides_iff, hsame]
  rintro ⟨above, bounds, hlt, hget, _⟩
  rw [List.getElem?_eq_none hlt] at hget
  cases hget

/-- The window that has come is to be repainted, and its shadow with it. The bounds are hidden, the shadow is in full
view, and the window is not painted. -/
theorem shadow_culled_shadowRun :
    ∃ h damage area report h' stack' newest layer p, replay {} shadowRun = .ok h ∧
      h.repaintArea 1 Size.zero = .ok (damage, area) ∧ shadowStack.length = lastHeight shadowRun ∧
      h.occlude shadowStack area = .ok (report, h', stack') ∧ h'.frame 0 = .ok newest ∧
      newest.layer 1 = .ok layer ∧ area.covers p ∧ layer.shadowBounds.covers p ∧ ¬ newest.hides 1 p ∧
      layer.toPaint = false := by
  have hmarked : (replay {} shadowRun >>= fun h => h.repaintArea 1 Size.zero >>= fun found =>
      (h.occlude shadowStack found.2).map (fun result => (found.2.rects, result.2.1.newest.layers.map (fun l =>
        (l.toPaint, (l.isOpaque, l.bounds), l.shadowBounds))))) =
      .ok ([sampleStrip 4 20], [(true, (true, sampleStrip 0 32), Layer.shadowBounds {}),
        (false, (true, sampleStrip 4 12), sampleStrip 12 20),
        (true, (true, sampleStrip 4 12), Layer.shadowBounds {})]) := by decide +kernel
  obtain ⟨h, hrun, hmarked⟩ := bind_eq_ok_iff.mp hmarked
  obtain ⟨⟨damage, area⟩, hdamage, hmarked⟩ := bind_eq_ok_iff.mp hmarked
  obtain ⟨⟨report, h', stack'⟩, hok, hmarked⟩ := map_eq_ok_iff.mp hmarked
  obtain ⟨harea, hlayers⟩ := Prod.mk.inj hmarked
  have hshaded := congrArg (·[1]?) hlayers
  simp only [List.getElem?_map] at hshaded
  obtain ⟨layer, hlayer, hlooks⟩ := Option.map_eq_some_iff.mp hshaded
  obtain ⟨hculled, hlooks⟩ := Prod.mk.inj hlooks
  obtain ⟨-, hshadow⟩ := Prod.mk.inj hlooks
  obtain ⟨p, hp⟩ : ∃ p, (sampleStrip 12 20).covers p := Rect.isEmpty_eq_false_iff_exists.mp (by decide +kernel)
  refine ⟨h, damage, area, report, h', stack', h'.newest, layer, p, hrun, hdamage, rfl, hok, h'.frame_zero,
    Frame.layer_eq_ok_iff.mpr hlayer, ?_, ?_, ?_, hculled⟩
  · have hinside : (sampleStrip 4 20).meet (sampleStrip 12 20) = sampleStrip 12 20 := by decide +kernel
    rw [← hinside, Rect.covers_meet (by decide +kernel) (by decide +kernel)] at hp
    exact ⟨sampleStrip 4 20, harea ▸ List.mem_cons_self, hp.1⟩
  · rw [hshadow]
    exact hp
  · -- the only layer further up ends where the shadow begins
    have hlooks : h'.newest.layers.map (fun l => (l.isOpaque, l.bounds)) =
        [(true, sampleStrip 0 32), (true, sampleStrip 4 12), (true, sampleStrip 4 12)] := by
      have := congrArg (List.map (fun looks => looks.2.1)) hlayers
      rw [List.map_map] at this
      exact this
    have hapart : ¬ (sampleStrip 4 12).overlaps (sampleStrip 12 20) = true := by decide +kernel
    rw [Rect.overlaps_iff (by decide +kernel) (by decide +kernel)] at hapart
    rw [Frame.hides_iff, hlooks]
    rintro ⟨above, bounds, hlt, hget, hcovers⟩
    have hbound : above < 3 := (List.getElem?_eq_some_iff.mp hget).1
    obtain rfl : above = 2 := by omega
    obtain ⟨-, rfl⟩ := Prod.mk.inj (Option.some.inj hget)
    exact hapart ⟨p, hcovers, hp⟩

end History

end Repaint
