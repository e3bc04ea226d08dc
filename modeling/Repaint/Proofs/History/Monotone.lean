import Repaint.Proofs.History.Accumulate
import Repaint.Proofs.History.Dilation
import Repaint.Proofs.History.Picture

/-!
# Older buffers and wider blurs repaint more

The area to repaint grows with the age of the buffer and with the reach of the blur (`repaintArea_mono`). The two
queries spread areas that are cut into different rectangles, and feed what a layer adds to the layers above it. Sums
that are rounded do no harm: a rectangle that grows covers what can be reached from its points
(`Rect.covers_grow`), so that what the spread of an area covers depends on its points alone
(`Layer.covers_spreadInto_iff_reaches`), and rounding keeps the order of sums (`Binary.Reaches.mono`).

* **one layer** — more points, and a wider blur, spread to more points (`Layer.covers_spreadInto_mono`);
* **all layers** — the fold over the layers, by induction with both areas at once (`covers_spreadBlur_mono`);
* **the span** — the changes of a shorter span are among those of a longer one, and so are the reasons to give up.
-/

namespace Repaint

/-! ## One layer -/

namespace Layer

variable {layer : Layer} {dx dy dx' dy' : Coord} {area area' : Region} {p : Point}

/-- The area adds to the bounds what is reached from those of its points that lie where the bounds reach. -/
theorem covers_spreadInto_iff_reaches (harea : area.Solid) (hdx : dx.AtLeast 0) (hdy : dy.AtLeast 0) :
    (spreadInto layer dx dy area).covers p ↔ area.covers p ∨ layer.bounds.covers p ∧
      ∃ q, (area.covers q ∧ (layer.bounds.grow dx dy).covers q) ∧ Reaches dx dy p q := by
  have hsolid : (area.clip (layer.bounds.grow dx dy)).Solid := Region.solid_clip
  rw [covers_spreadInto harea hdx hdy]
  refine or_congr_right (and_congr_right fun hp => ?_)
  have hcut (q : Point) : (area.clip (layer.bounds.grow dx dy)).covers q ↔
      area.covers q ∧ (layer.bounds.grow dx dy).covers q := by
    rw [Region.covers_clip harea.numeric (hp.numeric_grow hdx hdy).normalize, hp.normalize_grow hdx hdy]
  constructor
  · intro ⟨rect, hrect, hgrown⟩
    obtain ⟨q, hq, hreach⟩ := (Rect.covers_grow (hsolid rect hrect) hdx hdy).mp hgrown
    exact ⟨q, (hcut q).mp ⟨rect, hrect, hq⟩, hreach⟩
  · intro ⟨q, hq, hreach⟩
    obtain ⟨rect, hrect, hqr⟩ := (hcut q).mpr hq
    exact ⟨rect, hrect, (Rect.covers_grow (hsolid rect hrect) hdx hdy).mpr ⟨q, hqr, hreach⟩⟩

theorem covers_spreadInto_mono (harea : area.Solid) (harea' : area'.Solid) (hdx : dx.AtLeast 0) (hdy : dy.AtLeast 0)
    (hx : dx ≤ dx') (hy : dy ≤ dy') (hsub : ∀ p, area.covers p → area'.covers p)
    (hp : (spreadInto layer dx dy area).covers p) : (spreadInto layer dx' dy' area').covers p := by
  have hdx' : dx'.AtLeast 0 := hdx.of_le hx
  have hdy' : dy'.AtLeast 0 := hdy.of_le hy
  have hwider {p q : Point} (h : Reaches dx dy p q) : Reaches dx' dy' p q := ⟨h.1.mono hdx hx, h.2.mono hdy hy⟩
  rw [covers_spreadInto_iff_reaches harea hdx hdy] at hp
  rw [covers_spreadInto_iff_reaches harea' hdx' hdy']
  rcases hp with hp | ⟨hin, q, ⟨hq, hnear⟩, hreach⟩
  · exact Or.inl (hsub p hp)
  · obtain ⟨b, hb, hb'⟩ := (Rect.covers_grow hin.isEmpty_eq_false hdx hdy).mp hnear
    have hnear' := (Rect.covers_grow hin.isEmpty_eq_false hdx' hdy').mpr ⟨b, hb, hwider hb'⟩
    exact Or.inr ⟨hin, q, ⟨hsub q hq, hnear'⟩, hwider hreach⟩

end Layer

/-! ## All layers -/

section Spread

variable {layers : List Layer} {dx dy dx' dy' : Coord} {blur blur' : Size} {area area' : Region} {p : Point}

theorem covers_foldl_spreadInto_mono (harea : area.Solid) (harea' : area'.Solid) (hdx : dx.AtLeast 0)
    (hdy : dy.AtLeast 0) (hx : dx ≤ dx') (hy : dy ≤ dy') (hsub : ∀ p, area.covers p → area'.covers p) : ∀ p,
    (layers.foldl (fun area layer => if layer.blurs then spreadInto layer dx dy area else area) area).covers p →
    (layers.foldl (fun area layer => if layer.blurs then spreadInto layer dx' dy' area else area) area').covers p := by
  induction layers generalizing area area' with
  | nil => exact hsub
  | cons layer layers ih =>
    rw [List.foldl_cons, List.foldl_cons]
    by_cases hblurs : layer.blurs = true
    · rw [if_pos hblurs, if_pos hblurs]
      apply ih (spreadInto_spec layer dx dy harea).1 (spreadInto_spec layer dx' dy' harea').1
      intro p hp
      exact Layer.covers_spreadInto_mono harea harea' hdx hdy hx hy hsub hp
    · rw [if_neg hblurs, if_neg hblurs]
      exact ih harea harea' hsub

/-- A wider blur spreads more points to more points. -/
theorem covers_spreadBlur_mono (hwidth : blur.width ≤ blur'.width) (hheight : blur.height ≤ blur'.height)
    (harea : area.Solid) (harea' : area'.Solid) (hsub : ∀ p, area.covers p → area'.covers p)
    (hp : (spreadBlur layers blur area).covers p) : (spreadBlur layers blur' area').covers p := by
  have hzero : (0 : Coord) ≠ .nan := fun h => by cases h
  have hdx := Binary.atLeast_max_zero blur.width
  have hdy := Binary.atLeast_max_zero blur.height
  have hx : max blur.width 0 ≤ max blur'.width 0 := Binary.max_le_max hwidth hzero
  have hy : max blur.height 0 ≤ max blur'.height 0 := Binary.max_le_max hheight hzero
  by_cases hnone : ((max blur.width 0).agrees 0 && (max blur.height 0).agrees 0) = true
  · rw [spreadBlur, if_pos hnone] at hp
    exact (spreadBlur_spec layers blur' harea').2 p (hsub p hp)
  · -- a wider blur is not without reach either
    have hnone' : ¬ ((max blur'.width 0).agrees 0 && (max blur'.height 0).agrees 0) = true := by
      intro hnone'
      obtain ⟨hwidth', hheight'⟩ := Bool.and_eq_true_iff.mp hnone'
      rw [Binary.eq_of_agrees hwidth'] at hx
      rw [Binary.eq_of_agrees hheight'] at hy
      rw [Binary.le_antisymm hx hdx.zero_le, Binary.le_antisymm hy hdy.zero_le] at hnone
      exact hnone rfl
    simp only [spreadBlur, if_neg hnone] at hp
    simp only [spreadBlur, if_neg hnone']
    exact covers_foldl_spreadInto_mono harea harea' hdx hdy hx hy hsub p hp

end Spread

/-! ## The span -/

namespace History

variable {h : History} {config : Config} {actions : List Action} {age age' : Nat} {blur blur' : Size}

theorem lostSince_mono (hpos : 1 ≤ age) (hle : age ≤ age') (hlost : h.lostSince age = true) :
    h.lostSince age' = true := by
  rw [lostSince_eq_true_iff hpos] at hlost
  obtain ⟨i, hi, hreplaced⟩ := hlost
  exact (lostSince_eq_true_iff (by omega)).mpr ⟨i, by omega, hreplaced⟩

/-- **Older buffers and wider blurs repaint more.** After every run, whatever its stacks and wherever its windows are:
the area to be repainted for a buffer covers that for a buffer that is no older, with a blur that reaches no further.
If the younger buffer is lost, so is the older one. -/
theorem repaintArea_mono (hrun : replay config actions = .ok h) (hpos : 1 ≤ age) (hle : age ≤ age')
    (hage : age' ≤ config.maxAge) (hwidth : blur.width ≤ blur'.width) (hheight : blur.height ≤ blur'.height) :
    ∃ report area report' area', h.repaintArea age blur = .ok (report, area) ∧
      h.repaintArea age' blur' = .ok (report', area') ∧ area.points ⊆ area'.points ∧
      (report.full = true → report'.full = true) := by
  obtain ⟨hc, hmaxAge⟩ := consistent_of_replay hrun
  rw [← hmaxAge] at hage
  obtain ⟨changes, hok, hsolid, hcovers⟩ := changesSince_spec hc.linksInto age (by omega)
  obtain ⟨changes', hok', hsolid', hcovers'⟩ := changesSince_spec hc.linksInto age' hage
  refine ⟨_, _, _, _, repaintArea_ok (by omega) hok blur, repaintArea_ok hage hok' blur', ?_, lostSince_mono hpos hle⟩
  intro p hp
  rw [(solid_repainted blur).mem_points] at hp
  rw [(solid_repainted blur').mem_points]
  cases hlost : h.lostSince age with
  | true =>
    rw [covers_repainted_of_lost hlost] at hp
    rwa [covers_repainted_of_lost (lostSince_mono hpos hle hlost)]
  | false =>
    rw [covers_repainted_of_kept hlost hpos hsolid] at hp
    obtain ⟨hp, hscreen⟩ := hp
    cases hlost' : h.lostSince age' with
    | true => rwa [covers_repainted_of_lost hlost']
    | false =>
      -- the changes of the shorter span are among those of the longer one
      have hsub : ∀ q, changes.covers q → changes'.covers q := by
        intro q hq
        obtain ⟨i, hi, hchanged⟩ := (hcovers q).mp hq
        exact (hcovers' q).mpr ⟨i, by omega, hchanged⟩
      rw [covers_repainted_of_kept hlost' (by omega) hsolid']
      exact ⟨covers_spreadBlur_mono hwidth hheight hsolid hsolid' hsub hp, hscreen⟩

/-- The background behind the glass gets its spot twice over. Neither answer is the whole screen. -/
theorem repaintArea_mono_glassRun :
    ∃ h report area report' area', replay {} (glassRun ++ glassRun) = .ok h ∧
      h.repaintArea 1 ⟨Binary.ofInt 1, 0⟩ = .ok (report, area) ∧
      h.repaintArea 2 ⟨Binary.ofInt 2, 1⟩ = .ok (report', area') ∧
      area.points ⊆ area'.points ∧ report.full = false ∧ report'.full = false := by
  obtain ⟨h, hrun⟩ : ∃ h, replay {} (glassRun ++ glassRun) = .ok h := replay_ok (by decide) (by decide +kernel)
  have hkept : (replay {} (glassRun ++ glassRun) >>= fun h => h.repaintArea 2 ⟨Binary.ofInt 2, 1⟩).map
      (fun result => result.1.full) = .ok false := by decide +kernel
  rw [hrun, ok_bind] at hkept
  obtain ⟨report, area, report', area', hok, hok', hsub, hfull⟩ :=
    repaintArea_mono hrun (Nat.le_refl 1) (Nat.le_succ 1) (by decide)
      (show (⟨Binary.ofInt 1, 0⟩ : Size).width ≤ (⟨Binary.ofInt 2, 1⟩ : Size).width by decide +kernel)
      (show (⟨Binary.ofInt 1, 0⟩ : Size).height ≤ (⟨Binary.ofInt 2, 1⟩ : Size).height by decide +kernel)
  rw [hok'] at hkept
  have hkept' : report'.full = false := Except.ok.inj hkept
  refine ⟨h, report, area, report', area', hrun, hok, hok', hsub, ?_, hkept'⟩
  rw [Bool.eq_false_iff]
  intro hlost
  rw [hfull hlost] at hkept'
  cases hkept'

end History

end Repaint
