import Repaint.Proofs.History.Accumulate
import Repaint.Proofs.Region.Program

/-!
# Every repainted point has a reason

Without blurs, the answer to a damage query is nothing but the points for which one of four reasons holds between two
neighbouring frames of the span (`Frame.Reason`): a window came, went, changed its looks or its place in the stack, or
its content was damaged. A sweep up the newer frame remembers a single number, the highest older rank so far. That is
enough to tell which windows were raised, however the stack was permuted and whoever came and went (`Frame.Raised`).

* **one frame to the next** — the changes that the sweep collects are those with a reason (`Frame.changed_iff_reason`);
* **the span** — `History.mem_repaintArea_iff`.
-/

namespace Repaint

variable {p : Point}

/-! ## One frame to the next -/

/-- The points of the layer's bounds and those of its shadow. -/
def Layer.extent (l : Layer) : Set Point := l.bounds.points ∪ l.shadowBounds.points

theorem Layer.mem_extent (l : Layer) : p ∈ l.extent ↔ l.occupies p :=
  or_congr Rect.mem_points_ofOrigin Rect.mem_points_ofOrigin

theorem Layer.mem_points_damaged (l : Layer) : p ∈ l.damaged.points ↔ l.damages p := by
  simp [Region.points, Rect.points, Layer.damages]

namespace Frame

variable {newer older : Frame}

/-- The layer at a rank, whose window had the rank `prev` in the older frame, was raised: it stands on a layer whose
window it used to sit beneath. -/
def Raised (newer : Frame) (rank prev : Nat) : Prop :=
  ∃ below < rank, ∃ lower, newer.layers[below]? = some lower ∧ ∃ high, lower.prevRank = some high ∧ prev < high

/-- A reason to repaint a point that was last painted with the older frame. -/
inductive Reason (newer older : Frame) (p : Point) : Prop
  /-- The window of a layer was not there. -/
  | came (layer : Layer) (hlayer : layer ∈ newer.layers) (hnew : layer.prevRank = none) (hp : p ∈ layer.extent)
  /-- The window of a layer is gone. -/
  | went (old : Layer) (hold : old ∈ older.layers) (hgone : old.nextRank = none) (hp : p ∈ old.extent)
  /-- A window looks different or was raised. -/
  | moved (rank prev : Nat) (layer old : Layer) (hlayer : newer.layers[rank]? = some layer)
      (hprev : layer.prevRank = some prev) (hold : older.layers[prev]? = some old)
      (hmoved : layer.looksDifferent old = true ∨ newer.Raised rank prev) (hp : p ∈ layer.extent ∪ old.extent)
  /-- A window looks the same, was not raised, and has other content. -/
  | damaged (rank prev : Nat) (layer old : Layer) (hlayer : newer.layers[rank]? = some layer)
      (hprev : layer.prevRank = some prev) (hold : older.layers[prev]? = some old)
      (hstays : ¬ (layer.looksDifferent old = true ∨ newer.Raised rank prev)) (hp : p ∈ layer.damaged.points)

/-- What was left behind on the way up to a layer outranks it iff the layer was raised. -/
theorem outranked_take_iff {rank prev : Nat} :
    outranked (newer.layers.take rank) prev ↔ newer.Raised rank prev := History.exists_mem_take_iff

/-- What may have changed has a reason, and what has a reason may have changed. -/
theorem changed_iff_reason : newer.changed older p ↔ newer.Reason older p := by
  constructor
  · rintro (⟨rank, layer, hlayer, hchanges⟩ | ⟨old, hold, hgone, hp⟩)
    · unfold Layer.changes at hchanges
      cases hprev : layer.prevRank with
      | none =>
        rw [hprev] at hchanges
        exact .came layer (List.mem_of_getElem? hlayer) hprev (layer.mem_extent.mpr hchanges)
      | some prev =>
        simp only [hprev, outranked_take_iff] at hchanges
        obtain ⟨old, hold, ⟨hmoved, hp⟩ | ⟨hstays, hp⟩⟩ := hchanges
        · refine .moved rank prev layer old hlayer hprev hold hmoved.symm ?_
          exact hp.symm.imp layer.mem_extent.mpr old.mem_extent.mpr
        · refine .damaged rank prev layer old hlayer hprev hold ?_ (layer.mem_points_damaged.mpr hp)
          exact fun hmoved => hstays hmoved.symm
    · exact .went old hold hgone (old.mem_extent.mpr hp)
  · intro hreason
    cases hreason with
    | came layer hlayer hnew hp =>
      obtain ⟨rank, hrank⟩ := List.mem_iff_getElem?.mp hlayer
      refine Or.inl ⟨rank, layer, hrank, ?_⟩
      rw [Layer.changes, hnew]
      exact layer.mem_extent.mp hp
    | went old hold hgone hp => exact Or.inr ⟨old, hold, hgone, old.mem_extent.mp hp⟩
    | moved rank prev layer old hlayer hprev hold hmoved hp =>
      refine Or.inl ⟨rank, layer, hlayer, ?_⟩
      simp only [Layer.changes, hprev, outranked_take_iff]
      exact ⟨old, hold, Or.inl ⟨hmoved.symm, hp.symm.imp old.mem_extent.mp layer.mem_extent.mp⟩⟩
    | damaged rank prev layer old hlayer hprev hold hstays hp =>
      refine Or.inl ⟨rank, layer, hlayer, ?_⟩
      simp only [Layer.changes, hprev, outranked_take_iff]
      exact ⟨old, hold, Or.inr ⟨fun hmoved => hstays hmoved.symm, layer.mem_points_damaged.mp hp⟩⟩

/-- A frame whose screen has a point has a size that is a number. -/
theorem agrees_size_of_covers {f : Frame} (hp : f.bounds.covers p) : f.size.agrees f.size = true := by
  obtain ⟨⟨hleft, hright⟩, htop, hbottom⟩ := hp
  have hx := Binary.lt_of_atMost_of_exceeds hleft hright
  have hy := Binary.lt_of_atMost_of_exceeds htop hbottom
  -- an extent that is not a number leaves no room between the edges
  rw [Size.agrees, Bool.and_eq_true]
  constructor
  · cases hwidth : f.size.width with
    | nan =>
      rw [bounds, Rect.ofOrigin, Rect.normalize, hwidth] at hx
      exact absurd (show (0 : Coord) < 0 from hx) (by decide)
    | _ => simp [Binary.agrees]
  · cases hheight : f.size.height with
    | nan =>
      rw [bounds, Rect.ofOrigin, Rect.normalize, hheight] at hy
      exact absurd (show (0 : Coord) < 0 from hy) (by decide)
    | _ => simp [Binary.agrees]

end Frame

/-! ## The span -/

namespace History

variable {h : History} {age : Nat} {config : Config} {actions : List Action}

/-- Where the screen has a point, a span of frames of one size and one surface is not lost. -/
theorem lostSince_eq_false_of_covers (hp : h.newest.bounds.covers p) (hpos : 1 ≤ age)
    (hsame : ∀ i < age, (h.frames.get i).size = (h.frames.get (i + 1)).size ∧
      (h.frames.get i).generation = (h.frames.get (i + 1)).generation) : h.lostSince age = false := by
  have hsize : ∀ i ≤ age, (h.frames.get i).size = h.newest.size := by
    intro i
    induction i with
    | zero =>
      intro _
      rfl
    | succ i ih =>
      intro hi
      rw [← ih (by omega), (hsame i hi).1]
  rw [Bool.eq_false_iff]
  intro hlost
  obtain ⟨i, hi, hreplaced⟩ := (lostSince_eq_true_iff hpos).mp hlost
  have hagrees := Frame.agrees_size_of_covers hp
  rw [Frame.replaced, ← (hsame i hi).1, ← (hsame i hi).2, hsize i (by omega), hagrees] at hreplaced
  simp at hreplaced

/-- **Every repainted point has a reason.** After every run, ask for the damage of any span of frames that are kept
and have one size and one surface. Blurs left out, a point is answered iff it lies on the screen and there is a
reason to repaint it between two neighbouring frames of the span. -/
theorem mem_repaintArea_iff (hrun : replay config actions = .ok h) (hpos : 1 ≤ age) (hage : age ≤ config.maxAge)
    (hsame : ∀ i < age, ∀ newer older, h.frame i = .ok newer → h.frame (i + 1) = .ok older →
      newer.size = older.size ∧ newer.generation = older.generation) :
    ∃ report area newest, h.repaintArea age Size.zero = .ok (report, area) ∧ h.frame 0 = .ok newest ∧
      ∀ p, p ∈ area.points ↔ p ∈ newest.bounds.points ∧
        ∃ i < age, ∃ newer older, h.frame i = .ok newer ∧ h.frame (i + 1) = .ok older ∧ newer.Reason older p := by
  obtain ⟨hc, hmaxAge⟩ := consistent_of_replay hrun
  have hframe : ∀ i ≤ age, h.frame i = .ok (h.frames.get i) := fun i hi => frame_of_replay hrun (hi.trans hage)
  rw [← hmaxAge] at hage
  have hsame' := fun i (hi : i < age) => hsame i hi _ _ (hframe i (by omega)) (hframe (i + 1) hi)
  obtain ⟨changes, hchanges, _⟩ := changesSince_spec hc.linksInto age hage
  obtain ⟨report, area, hok, hfull, hcovers⟩ := repaintArea_zero hc hpos hage
  obtain rfl : h.repainted age Size.zero changes = area := by
    rw [repaintArea_ok hage hchanges] at hok
    exact congrArg Prod.snd (Except.ok.inj hok)
  refine ⟨report, _, h.newest, hok, h.frame_zero, fun p => ?_⟩
  have hreasons : (∃ i < age, ∃ newer older, h.frame i = .ok newer ∧ h.frame (i + 1) = .ok older ∧
      newer.Reason older p) ↔ ∃ i < age, (h.frames.get i).changed (h.frames.get (i + 1)) p := by
    refine exists_congr fun i => and_congr_right fun hi => ?_
    rw [hframe i (by omega), hframe (i + 1) hi, Frame.changed_iff_reason]
    simp only [Except.ok.injEq, exists_and_left, exists_eq_left']
  rw [(solid_repainted Size.zero).mem_points, hreasons,
    show p ∈ h.newest.bounds.points ↔ h.newest.bounds.covers p from Rect.mem_points_ofOrigin]
  cases hlost : h.lostSince age with
  | false => rw [hcovers (hfull.trans hlost) p, and_comm]
  | true =>
    -- the screen has no point at all
    have hscreen : ¬ h.newest.bounds.covers p := by
      intro hp
      rw [lostSince_eq_false_of_covers hp hpos hsame'] at hlost
      cases hlost
    refine iff_of_false ?_ (fun hp => hscreen hp.1)
    rw [repainted, if_pos hlost, Region.covers_ofRect,
      show h.newest.bounds.normalize = h.newest.bounds from Rect.normalize_ofOrigin _ _]
    exact hscreen

/-- Two frames ago one window was raised past another one. All of it that is on the screen is repainted. -/
theorem mem_repaintArea_iff_sampleRun :
    ∃ h report area newest, replay {} sampleRun = .ok h ∧ h.repaintArea 2 Size.zero = .ok (report, area) ∧
      h.frame 0 = .ok newest ∧ ∀ p, p ∈ newest.bounds.points →
        p ∈ (Rect.ofOrigin ⟨Binary.ofInt 4, 0⟩ ⟨Binary.ofInt 8, Binary.ofInt 8⟩).points → p ∈ area.points := by
  have hspan : (replay {} sampleRun).map (fun h => decide (∀ i : Nat, i < 2 →
      (h.frames.get i).size = (h.frames.get (i + 1)).size ∧
        (h.frames.get i).generation = (h.frames.get (i + 1)).generation)) = .ok true := by decide +kernel
  have hlinks : (replay {} sampleRun).map (fun h =>
      ((h.frames.get 1).layers.map (fun l => (l.prevRank, l.bounds)), (h.frames.get 2).layers.length)) =
      .ok ([(some 0, Rect.ofOrigin Vec.zero ⟨Binary.ofInt 32, Binary.ofInt 8⟩),
        (some 2, Rect.ofOrigin Vec.zero ⟨Binary.ofInt 8, Binary.ofInt 8⟩),
        (some 1, Rect.ofOrigin ⟨Binary.ofInt 4, 0⟩ ⟨Binary.ofInt 8, Binary.ofInt 8⟩)], 3) := by decide +kernel
  obtain ⟨h, hrun, hspan⟩ := map_eq_ok_iff.mp hspan
  rw [hrun] at hlinks
  obtain ⟨hlayers, hlength⟩ := Prod.mk.inj (Except.ok.inj hlinks)
  have hframe : ∀ i ≤ 2, h.frame i = .ok (h.frames.get i) := fun i hi => frame_of_replay hrun (hi.trans (by decide))
  have hsame : ∀ i < 2, ∀ newer older, h.frame i = .ok newer → h.frame (i + 1) = .ok older →
      newer.size = older.size ∧ newer.generation = older.generation := by
    intro i hi newer older hnewer holder
    rw [hframe i (by omega)] at hnewer
    rw [hframe (i + 1) hi] at holder
    cases hnewer
    cases holder
    exact of_decide_eq_true hspan i hi
  obtain ⟨report, area, newest, hok, hnewest, hreason⟩ :=
    mem_repaintArea_iff hrun (by decide : 1 ≤ 2) (by decide) hsame
  refine ⟨h, report, area, newest, hrun, hok, hnewest, fun p hscreen hp => ?_⟩
  refine (hreason p).mpr ⟨hscreen, 1, by decide, _, _, hframe 1 (by decide), hframe 2 (by decide), ?_⟩
  -- the window at rank 2 stands on the one at rank 1, which had a higher rank than it
  have hlayer (rank : Nat) := (List.getElem?_map ..).symm.trans (congrArg (·[rank]?) hlayers)
  obtain ⟨lower, hlower, hhigh⟩ := Option.map_eq_some_iff.mp (hlayer 1)
  obtain ⟨raised, hraised, hlow⟩ := Option.map_eq_some_iff.mp (hlayer 2)
  obtain ⟨hprev, hbounds⟩ := Prod.mk.inj hlow
  refine .moved 2 1 raised _ hraised hprev (List.getElem?_eq_getElem (by omega)) (Or.inr ?_) (Or.inl (Or.inl ?_))
  · exact ⟨1, by decide, lower, hlower, 2, congrArg Prod.fst hhigh, by decide⟩
  · rw [hbounds]
    exact hp

end History

end Repaint
