import Repaint.Proofs.History.Blur
import Repaint.Proofs.History.Stale

/-!
# Repainting the damage restores the picture

Whoever paints the windows, and however: outside the area that a damage query answers, the picture of the newest
frame is the one that the back buffer still shows (`repaintArea_restores_picture`). A painter is any function of
what a layer may show at a point, and a blurring layer may show all that lies beneath it within reach of the blur.

* **one layer** — two layers that look alike, over pictures that differ in a set of points at most, give pictures
  that differ at most where the set spreads to (`Painter.eqOn_draw`);
* **all layers** — the pictures of two stacks that are alike on the other points differ at most where the set spreads
  to through the newer stack (`Painter.eqOn_foldl_draw`). The layers that keep off those points may be anywhere in
  either stack;
* **the span** — the contents of a window agree where nothing has changed (`History.content_of_not_changed`).
-/

namespace Repaint

/-! ## Painters -/

/-- A way to paint windows. What a layer puts at a point depends on the point, the window's key, the layer's looks,
the window's content at the point, and on what the layer sees beneath it. -/
structure Painter (Content Color : Type*) where
  /-- The picture without windows. -/
  background : Point → Color
  paint : Point → Key → Layer → Content → (Point → Option Color) → Color

namespace Layer

/-- Painted at `p`, the layer sees what lies beneath it at `q`. -/
def sees (layer : Layer) (reach : ℝ × ℝ) (p q : Point) : Prop :=
  q = p ∨ layer.isOpaque = false ∧ 0 < layer.blurOpacity ∧ layer.bounds.covers p ∧ Near reach p q

/-- What the layer sees from a point that the unsettled points do not spread to is settled. -/
theorem sees.notMem {layer : Layer} {reach : ℝ × ℝ} {p q : Point} {w : Set Point} (h : layer.sees reach p q)
    (hp : p ∉ layer.spread reach w) : q ∉ w := by
  rcases h with rfl | ⟨htranslucent, hpos, hbounds, hnear⟩
  · exact fun hq => hp (layer.subset_spread reach w hq)
  · intro hq
    apply hp
    rw [spread, if_pos ((blurs_iff (Binary.ne_nan_of_lt_right hpos)).mpr ⟨htranslucent, hpos⟩)]
    exact Or.inr ⟨hbounds, q, hq, hnear⟩

end Layer

namespace Painter

variable {Content Color : Type*} (painter : Painter Content Color) {reach : ℝ × ℝ}

open Classical in
/-- The picture with a layer painted over it. -/
noncomputable def draw (reach : ℝ × ℝ) (content : Key → Point → Content) (beneath : Point → Color)
    (layer : Layer) (p : Point) : Color :=
  if layer.occupies p then
    painter.paint p layer.key layer.looks (content layer.key p)
      (fun q => if layer.sees reach p q then some (beneath q) else none)
  else beneath p

/-- The picture of a stack of layers, painted bottom to top. -/
noncomputable def picture (reach : ℝ × ℝ) (content : Key → Point → Content) (layers : List Layer) :
    Point → Color :=
  layers.foldl (painter.draw reach content) painter.background

variable {painter} {content content' : Key → Point → Content} {f g : Point → Color} {w s : Set Point}

theorem draw_of_not_occupies {layer : Layer} {p : Point} (h : ¬ layer.occupies p) :
    painter.draw reach content f layer p = f p := if_neg h

theorem eqOn_foldl_draw_self {layers : List Layer}
    (hoff : ∀ layer ∈ layers, ∀ p ∈ s, ¬ layer.occupies p) :
    Set.EqOn (layers.foldl (painter.draw reach content) f) f s := by
  induction layers generalizing f with
  | nil => exact fun p _ => rfl
  | cons layer layers ih =>
    obtain ⟨hfirst, hrest⟩ := List.forall_mem_cons.mp hoff
    intro p hp
    rw [List.foldl_cons, ih hrest hp]
    exact draw_of_not_occupies (hfirst p hp)

theorem eqOn_draw {new old : Layer} (hkey : new.key = old.key) (hlike : new.looksDifferent old = false)
    (hcontent : ∀ p, p ∉ w → new.occupies p → content new.key p = content' new.key p)
    (h : Set.EqOn f g wᶜ) :
    Set.EqOn (painter.draw reach content f new) (painter.draw reach content' g old)
      (new.spread reach w)ᶜ := by
  intro p hp
  have hsettled : p ∉ w := fun hw => hp (new.subset_spread reach w hw)
  by_cases hoccupies : new.occupies p
  · have hbackdrop : ∀ q, new.sees reach p q → f q = g q := fun q hq => h (hq.notMem hp)
    have hsees : old.sees reach p = new.sees reach p := by
      show old.looks.sees reach p = new.looks.sees reach p
      rw [Layer.looks_eq hlike]
    rw [draw, draw, if_pos hoccupies, if_pos ((Layer.occupies_congr hlike).mp hoccupies), ← hkey,
      ← Layer.looks_eq hlike, hcontent p hsettled hoccupies, hsees]
    congr 1
    funext q
    split
    · rw [hbackdrop q ‹_›]
    · rfl
  · have hoff : ¬ old.occupies p := fun hold => hoccupies ((Layer.occupies_congr hlike).mpr hold)
    rw [draw_of_not_occupies hoccupies, draw_of_not_occupies hoff]
    exact h hsettled

/-- The layers that `on` leaves out keep off the settled points, those outside `w`; the others are alike, pair by
pair. -/
theorem eqOn_foldl_draw (on : Layer → Bool) {news olds : List Layer}
    (hon : ∀ layer, on layer = false → ∀ p, p ∉ w → ¬ layer.occupies p)
    (halike : List.Forall₂ (fun new old => new.key = old.key ∧ new.looksDifferent old = false)
      (news.filter on) (olds.filter on))
    (hcontent : ∀ layer ∈ news, ∀ p, p ∉ w → layer.occupies p →
      content layer.key p = content' layer.key p)
    (h : Set.EqOn f g wᶜ) :
    Set.EqOn (news.foldl (painter.draw reach content) f) (olds.foldl (painter.draw reach content') g)
      (spreadPoints reach news w)ᶜ := by
  -- up the newer stack; the older one follows whenever a layer stands on the settled points
  induction news generalizing olds f g w with
  | nil =>
    have hnone : ∀ layer ∈ olds, ¬ on layer = true :=
      List.filter_eq_nil_iff.mp (List.forall₂_nil_left_iff.mp halike)
    have hoff : ∀ layer ∈ olds, ∀ p ∈ wᶜ, ¬ layer.occupies p :=
      fun layer hlayer p hp => hon layer (Bool.not_eq_true _ ▸ hnone layer hlayer) p hp
    intro p hp
    rw [List.foldl_nil, h hp, eqOn_foldl_draw_self hoff hp]
  | cons new news ih =>
    obtain ⟨hfirst, hrest⟩ := List.forall_mem_cons.mp hcontent
    have hsub := new.subset_spread reach w
    have hon' : ∀ layer, on layer = false → ∀ p, p ∉ new.spread reach w → ¬ layer.occupies p :=
      fun layer hoff p hp => hon layer hoff p fun hw => hp (hsub hw)
    have hrest' : ∀ layer ∈ news, ∀ p, p ∉ new.spread reach w → layer.occupies p →
        content layer.key p = content' layer.key p :=
      fun layer hlayer p hp => hrest layer hlayer p fun hw => hp (hsub hw)
    cases hnew : on new with
    | false =>
      rw [List.filter_cons_of_neg (by simp [hnew])] at halike
      apply ih hon' halike hrest'
      intro p hp
      have hsettled : p ∉ w := fun hw => hp (hsub hw)
      rw [draw_of_not_occupies (hon new hnew p hsettled)]
      exact h hsettled
    | true =>
      rw [List.filter_cons_of_pos hnew] at halike
      obtain ⟨old, olds', ⟨hkey, hlike⟩, halike', hsplit⟩ := List.forall₂_cons_left_iff.mp halike
      obtain ⟨below, above, rfl, hbelow, _, rfl⟩ := List.filter_eq_cons_iff.mp hsplit
      rw [List.foldl_append, List.foldl_cons]
      apply ih hon' halike' hrest'
      have hoff : ∀ layer ∈ below, ∀ p ∈ wᶜ, ¬ layer.occupies p :=
        fun layer hlayer p hp => hon layer (Bool.not_eq_true _ ▸ hbelow layer hlayer) p hp
      apply eqOn_draw hkey hlike hfirst
      intro p hp
      rw [h hp, eqOn_foldl_draw_self hoff hp]

end Painter

/-! ## The span -/

namespace History

variable {config : Config} {actions : List Action} {h : History} {height age : Nat} {p : Point}
variable {Content : Type*} {content : Nat → Key → Point → Content}

/-- Where nothing has changed in a span, a window that stands there has the content that it had. -/
theorem content_of_not_changed (hc : h.Consistent height) (hkeys : h.KeysDistinct) (hage : age < h.capacity)
    (hp : ∀ i < age, ¬ (h.frames.get i).changed (h.frames.get (i + 1)) p)
    (hcontent : ∀ i < age, ∀ layer ∈ (h.frames.get i).layers, layer.prevRank ≠ none →
      ¬ layer.damaged.covers p → content i layer.key p = content (i + 1) layer.key p)
    {key : Key} (hkey : key ∈ (h.newest.layersAt p).map Layer.key) : content 0 key p = content age key p := by
  have hstep : ∀ i ≤ age, content 0 key p = content i key p := by
    intro i hi
    induction i with
    | zero => rfl
    | succ i ih =>
      obtain ⟨layer, hlayer, rfl, hprev, hintact⟩ := undamaged_of_not_changed hc hkeys hage hp hi hkey
      rw [ih (by omega)]
      apply hcontent i hi layer hlayer hprev
      rintro ⟨rect, hrect, hdamaged⟩
      exact hintact ⟨rect, hrect, hdamaged.normalize⟩
  exact hstep age (Nat.le_refl age)

/-- **Repainting the damage restores the picture.** After every run in which no push seats one key twice, let the
contents of the windows, frame by frame, differ from one frame to the next only where the layer of the newer one is
damaged. Whatever the painter, a damage query that rounds nothing either asks for the whole screen or leaves out
only points of the screen where the picture of the newest frame is the picture of the frame of that age. -/
theorem repaintArea_restores_picture {Color : Type*} (painter : Painter Content Color)
    (hrun : replay config actions = .ok h) (hdistinct : ∀ action ∈ actions, action.Distinct)
    (hpos : 1 ≤ age) (hage : age ≤ config.maxAge) (blur : Size)
    (hexact : ∀ changes, h.changesSince age = .ok changes → SpreadsExactly h.newest.layers blur changes)
    (hcontent : ∀ i < age, ∀ between, h.frame i = .ok between → ∀ layer ∈ between.layers,
      layer.prevRank ≠ none → ∀ p, ¬ layer.damaged.covers p →
        content i layer.key p = content (i + 1) layer.key p) :
    ∃ report area oldest, h.repaintArea age blur = .ok (report, area) ∧ h.frame age = .ok oldest ∧
      (report.full = false → ∀ p, h.newest.bounds.covers p → ¬ area.covers p →
        painter.picture blur.reach (content 0) h.newest.layers p =
          painter.picture blur.reach (content age) oldest.layers p) := by
  obtain ⟨hc, hmaxAge⟩ := consistent_of_replay hrun
  have hkeys := keysDistinct_of_replay hrun hdistinct
  rw [← hmaxAge] at hage
  have hcapacity : age < h.capacity := by
    rw [hc.capacity_eq]
    omega
  obtain ⟨changes, hok, hsolid, hcovers⟩ := changesSince_spec hc.linksInto age hage
  refine ⟨_, _, _, repaintArea_ok hage hok blur, frame_eq_ok hage, ?_⟩
  intro hfull p hscreen hout
  -- what the changes spread to is repainted; on the points that have not changed the two frames are alike
  have hp : p ∉ spreadPoints blur.reach h.newest.layers {p | changes.covers p} := by
    rw [← (hexact changes hok).covers_spreadBlur hsolid]
    exact fun hspread => hout (covers_repainted_of_spread hfull hsolid blur hscreen hspread)
  have hsettled : ∀ q, q ∉ {p | changes.covers p} →
      ∀ i < age, ¬ (h.frames.get i).changed (h.frames.get (i + 1)) q :=
    fun q hq i hi hchanged => hq ((hcovers q).mpr ⟨i, hi, hchanged⟩)
  have halike : h.newest.AlikeOn (h.frames.get age) {p | changes.covers p}ᶜ :=
    alikeOn_of_not_changed hc hkeys hpos hcapacity fun i hi q hq => hsettled q hq i hi
  have hcontents : ∀ layer ∈ h.newest.layers, ∀ q, q ∉ {p | changes.covers p} → layer.occupies q →
      content 0 layer.key q = content age layer.key q := by
    intro layer hlayer q hq hoccupies
    apply content_of_not_changed hc hkeys hcapacity (hsettled q hq)
    · intro i hi between hbetween hprev hintact
      exact hcontent i hi _ (frame_eq_ok (by omega)) between hbetween hprev q hintact
    · exact List.mem_map_of_mem (Frame.mem_layersAt.mpr ⟨hlayer, hoccupies⟩)
  refine Painter.eqOn_foldl_draw _ ?_ halike hcontents (fun _ _ => rfl) hp
  intro layer hoff q hq hoccupies
  have hnone : ¬ ∃ q ∈ {p | changes.covers p}ᶜ, layer.occupies q := by simpa using hoff
  exact hnone ⟨q, hq, hoccupies⟩

/-- A spot of the background, left of where the glass stands. -/
def sampleSpot : Region := Region.ofRect ⟨Binary.ofInt 9, 0, Binary.ofInt 11, Binary.ofInt 8⟩

/-- A glass before a background that gets a spot. -/
def glassRun : List Action :=
  let screen : Size := ⟨Binary.ofInt 32, Binary.ofInt 8⟩
  let glass : Window := { sampleWindow 4 12 8 with hasAlpha := true }
  let background : Window := sampleWindow 3 0 32
  [.push [glass, background] 7 screen, .push [glass, { background with pending := sampleSpot }] 7 screen]

/-- Ink runs as far as a layer sees. -/
def inkPainter : Painter Prop Prop where
  background := fun _ => False
  paint := fun _ _ _ ink beneath => ink ∨ ∃ q stained, beneath q = some stained ∧ stained

/-- The spot on the background of the newest frame. -/
def sampleInk (age : Nat) (key : Key) (p : Point) : Prop := age = 0 ∧ key = ⟨3⟩ ∧ sampleSpot.covers p

theorem repaintArea_restores_picture_glassRun :
    ∃ h report area oldest, replay {} glassRun = .ok h ∧
      h.repaintArea 1 ⟨Binary.ofInt 2, 0⟩ = .ok (report, area) ∧ report.full = false ∧
      h.frame 1 = .ok oldest ∧ ∀ p, h.newest.bounds.covers p → ¬ area.covers p →
        inkPainter.picture (Size.reach ⟨Binary.ofInt 2, 0⟩) (sampleInk 0) h.newest.layers p =
          inkPainter.picture (Size.reach ⟨Binary.ofInt 2, 0⟩) (sampleInk 1) oldest.layers p := by
  obtain ⟨h, hrun⟩ : ∃ h, replay {} glassRun = .ok h := replay_ok (by decide) (by decide +kernel)
  have hexact : (replay {} glassRun >>= fun h => (h.changesSince 1).map (fun changes =>
      decide (SpreadsExactly h.newest.layers ⟨Binary.ofInt 2, 0⟩ changes))) = .ok true := by decide +kernel
  have hlayers : (replay {} glassRun).map (fun h => h.newest.layers.map (fun l => (l.key, l.damaged))) =
      .ok [(⟨3⟩, sampleSpot), (⟨4⟩, Region.empty)] := by decide +kernel
  have hfull : (replay {} glassRun >>= fun h => h.repaintArea 1 ⟨Binary.ofInt 2, 0⟩).map
      (fun result => result.1.full) = .ok false := by decide +kernel
  rw [hrun, ok_bind] at hexact hfull
  rw [hrun] at hlayers
  have hspread : ∀ changes, h.changesSince 1 = .ok changes →
      SpreadsExactly h.newest.layers ⟨Binary.ofInt 2, 0⟩ changes := by
    intro changes hchanges
    rw [hchanges] at hexact
    exact of_decide_eq_true (Except.ok.inj hexact)
  have hcontent : ∀ i < 1, ∀ between, h.frame i = .ok between → ∀ layer ∈ between.layers,
      layer.prevRank ≠ none → ∀ p, ¬ layer.damaged.covers p →
        sampleInk i layer.key p = sampleInk (i + 1) layer.key p := by
    intro i hi between hbetween layer hlayer _ p hintact
    obtain rfl : i = 0 := Nat.lt_one_iff.mp hi
    rw [frame_eq_ok (Nat.zero_le _)] at hbetween
    cases hbetween
    have hpair : (layer.key, layer.damaged) ∈ [((⟨3⟩ : Key), sampleSpot), (⟨4⟩, Region.empty)] := by
      rw [← Except.ok.inj hlayers]
      exact List.mem_map_of_mem hlayer
    have hclean : ¬ sampleInk 0 layer.key p := by
      rintro ⟨_, hkey, hspot⟩
      rw [hkey] at hpair
      have hdamaged : layer.damaged = sampleSpot := by simpa using hpair
      exact hintact (hdamaged ▸ hspot)
    exact propext (iff_of_false hclean fun hink => Nat.one_ne_zero hink.1)
  obtain ⟨report, area, oldest, hok, holdest, hsame⟩ := repaintArea_restores_picture inkPainter hrun
    (by decide +kernel) (Nat.le_refl 1) (by decide) ⟨Binary.ofInt 2, 0⟩ hspread hcontent
  rw [hok] at hfull
  have hfull : report.full = false := Except.ok.inj hfull
  exact ⟨h, report, area, oldest, hrun, hok, hfull, holdest, hsame hfull⟩

end History

end Repaint
