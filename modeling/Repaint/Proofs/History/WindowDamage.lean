import Repaint.Proofs.History.Reason
import Repaint.Proofs.History.Refusal
import Repaint.Proofs.History.Track

/-!
# The damage of one window

A client may ask for the damage of a single window, over a span of frames that it stood in. The query goes back along
the links, as a walk does, and the rank of the window may be another one in every frame. Where no frame has a key twice:

* **links** — the query stays with the key that it starts from, until the first frame that lacks it
  (`collectBack_cases`, by induction over the frames on the way), so that it fails where a walk finds nothing;
* **damage** — what it collects is the damage of that window, in all the frames of the span and of no other window
  (`windowDamage_of_replay`);
* **the screen** — a window whose damage lies where its layers are has it repainted in a span of as many steps, be it
  that the damage counts in itself, or that the layer is new or was moved (`windowDamage_subset_repaintArea`).
-/

namespace Repaint

variable {p : Point}

/-- A layer's damage lies within its bounds if cutting it to them changes none of its rectangles. -/
theorem Layer.damaged_subset_extent {layer : Layer}
    (h : ∀ rect ∈ layer.damaged.rects, rect.normalize.Numeric ∧ rect.normalize.meet layer.bounds = rect.normalize)
    (hbounds : layer.bounds.Numeric) : layer.damaged.points ⊆ layer.extent := by
  intro p hp
  obtain ⟨rect, hrect, hp⟩ := layer.mem_points_damaged.mp hp
  obtain ⟨hnumeric, hmeet⟩ := h rect hrect
  rw [← hmeet, Rect.covers_meet hnumeric hbounds] at hp
  exact layer.mem_extent.mpr (Or.inl hp.2)

namespace Frame

/-- The points of the damage that the window of a key has in the frame. -/
def damageOf (f : Frame) (key : Key) : Set Point :=
  {p | ∃ layer ∈ f.layers, layer.key = key ∧ p ∈ layer.damaged.points}

theorem Distinct.mem_damageOf_iff {f : Frame} {layer : Layer} (h : f.Distinct) (hlayer : layer ∈ f.layers) :
    p ∈ f.damageOf layer.key ↔ p ∈ layer.damaged.points := by
  constructor
  · intro ⟨other, hother, hkey, hp⟩
    rwa [← h.layer_unique hother hlayer hkey]
  · intro hp
    exact ⟨layer, hlayer, rfl, hp⟩

/-- Where a layer is damaged and stands, the frame has changed since the one before: what does not count as damage
of its content counts as part of the layer. -/
theorem changed_of_damages {newer older : Frame} {layer : Layer} (hlinks : newer.linksInto older)
    (hlayer : layer ∈ newer.layers) (hdamaged : p ∈ layer.damaged.points) (hinside : p ∈ layer.extent) :
    newer.changed older p := by
  rw [layer.mem_points_damaged] at hdamaged
  rw [layer.mem_extent] at hinside
  obtain ⟨rank, hrank⟩ := List.mem_iff_getElem?.mp hlayer
  refine Or.inl ⟨rank, layer, hrank, ?_⟩
  unfold Layer.changes
  cases hprev : layer.prevRank with
  | none => exact hinside
  | some prev =>
    obtain ⟨old, hold⟩ : ∃ old, older.layers[prev]? = some old :=
      ⟨_, List.getElem?_eq_getElem (hlinks layer hlayer prev hprev)⟩
    refine ⟨old, hold, ?_⟩
    by_cases hmoved : outranked (newer.layers.take rank) prev ∨ layer.looksDifferent old = true
    · exact Or.inl ⟨hmoved, Or.inr hinside⟩
    · exact Or.inr ⟨hmoved, hdamaged⟩

end Frame

namespace History

variable {h : History} {height age rank : Nat} {layer : Layer} {area : Region}

/-! ## Going back -/

/-- How the way back from a layer ends: in the first frame that lacks the window, or with its damage in all frames
on the way. Where it ends does not depend on what was collected before. -/
theorem collectBack_cases (hc : h.Consistent height) (hd : h.KeysDistinct) (wanted : Nat) :
    ∀ (steps age : Nat) (layer : Layer) (area : Region), age + steps < h.capacity →
      layer ∈ (h.frames.get age).layers → h.Stays layer.key age →
      (∃ last < age + steps, h.Stays layer.key last ∧ ¬ (h.frames.get (last + 1)).Has layer.key ∧
        h.collectBack wanted steps age layer area = .error (.missingLayer layer.key (last + 1) wanted)) ∨
      (h.Stays layer.key (age + steps) ∧
        ∃ area', h.collectBack wanted steps age layer area = .ok area' ∧ (area.Solid → ∀ p, p ∈ area'.points ↔
          p ∈ area.points ∨ ∃ i < steps, p ∈ (h.frames.get (age + (i + 1))).damageOf layer.key)) := by
  intro steps
  induction steps with
  | zero =>
    intro age layer area _ _ hstays
    exact Or.inr ⟨hstays, area, rfl, fun _ => by simp⟩
  | succ steps ih =>
    intro age layer area hage hlayer hstays
    have hprev : layer.prevRank = (h.frames.get (age + 1)).find? layer.key :=
      (hc.linked age (by omega)).prev_eq_find? (hd (age + 1) (by omega)) layer hlayer
    rw [collectBack, hprev]
    cases hfind : (h.frames.get (age + 1)).find? layer.key with
    | none =>
      left
      exact ⟨age, by omega, hstays, Frame.find?_eq_none_iff.mp hfind, rfl⟩
    | some prev =>
      obtain ⟨old, hold, hkey⟩ := (hd (age + 1) (by omega)).find?_eq_some_iff.mp hfind
      have holdMem : old ∈ (h.frames.get (age + 1)).layers := List.mem_of_getElem? hold
      have hstays' : h.Stays old.key (age + 1) := by
        rw [hkey]
        exact stays_succ_iff.mpr ⟨hstays, old, holdMem, hkey⟩
      have hlast : age + 1 + steps = age + (steps + 1) := by omega
      have hrest := ih (age + 1) old (area.union old.damaged) (by omega) holdMem hstays'
      simp only [Frame.layer_eq_ok_iff.mpr hold, ok_bind]
      rw [hkey, hlast] at hrest
      refine hrest.imp_right ?_
      intro ⟨hstays, area', hok, hpoints⟩
      refine ⟨hstays, area', hok, fun harea p => ?_⟩
      -- the frame next to the layer, and those behind it
      have hsplit : (∃ i < steps + 1, p ∈ (h.frames.get (age + (i + 1))).damageOf layer.key) ↔
          p ∈ (h.frames.get (age + 1)).damageOf layer.key ∨
            ∃ i < steps, p ∈ (h.frames.get (age + 1 + (i + 1))).damageOf layer.key := by
        rw [Nat.exists_lt_succ_left]
        simp only [Nat.zero_add, Nat.add_assoc, Nat.add_comm 1]
      rw [hpoints harea.union p, hsplit, Region.points_union harea, Set.mem_union, or_assoc, ← hkey,
        (hd (age + 1) (by omega)).mem_damageOf_iff holdMem]

/-! ## The query -/

/-- How a query for the damage of a window ends: with the age refused, with the rank refused, in the first frame that
lacks the window, or with an answer. -/
theorem windowDamage_cases (hc : h.Consistent height) (hd : h.KeysDistinct) (age rank : Nat) (area : Region) :
    (h.maxAge < age ∧ h.windowDamage rank age area = .error (.ageOutOfRange age h.maxAge)) ∨
    (age ≤ h.maxAge ∧ h.newest.layers.length ≤ rank ∧
      h.windowDamage rank age area = .error (.rankOutOfRange rank h.newest.layers.length)) ∨
    ∃ first, age ≤ h.maxAge ∧ h.newest.layers[rank]? = some first ∧
      ((∃ last < age, h.Stays first.key last ∧ ¬ (h.frames.get (last + 1)).Has first.key ∧
        h.windowDamage rank age area = .error (.missingLayer first.key (last + 1) age)) ∨
      (h.Stays first.key age ∧ ∃ area', h.windowDamage rank age area = .ok area' ∧ (area.Solid →
        ∀ p, p ∈ area'.points ↔ p ∈ area.points ∨ ∃ i ≤ age, p ∈ (h.frames.get i).damageOf first.key))) := by
  have hcapacity := hc.capacity_eq
  rcases Nat.lt_or_ge h.maxAge age with hlate | hage
  · left
    exact ⟨hlate, by simp only [windowDamage, checkAge_of_lt hlate, error_bind]⟩
  have hcheck : h.checkAge age = .ok () := if_pos hage
  right
  rcases Nat.lt_or_ge rank h.newest.layers.length with hrank | hrank
  · right
    obtain ⟨first, hfirst⟩ : ∃ first, h.newest.layers[rank]? = some first := ⟨_, List.getElem?_eq_getElem hrank⟩
    have hmem : first ∈ h.newest.layers := List.mem_of_getElem? hfirst
    have hstays : h.Stays first.key 0 := by
      intro i hi
      obtain rfl : i = 0 := Nat.le_zero.mp hi
      exact ⟨first, hmem, rfl⟩
    have hquery : h.windowDamage rank age area = h.collectBack age age 0 first (area.union first.damaged) := by
      simp only [windowDamage, hcheck, ok_bind, Frame.layer_eq_ok_iff.mpr hfirst]
    refine ⟨first, hage, hfirst, ?_⟩
    have hback := collectBack_cases hc hd age age 0 first (area.union first.damaged) (by omega) hmem hstays
    rw [hquery]
    simp only [Nat.zero_add] at hback
    refine hback.imp_right ?_
    intro ⟨hstays, area', hok, hpoints⟩
    refine ⟨hstays, area', hok, fun harea p => ?_⟩
    -- the newest frame, and those on the way back
    have hsplit : (∃ i ≤ age, p ∈ (h.frames.get i).damageOf first.key) ↔
        p ∈ first.damaged.points ∨ ∃ i < age, p ∈ (h.frames.get (i + 1)).damageOf first.key := by
      simp only [← Nat.lt_add_one_iff, Nat.exists_lt_succ_left]
      exact or_congr_left ((hd 0 (by omega)).mem_damageOf_iff hmem)
    rw [hpoints harea.union p, Region.points_union harea, Set.mem_union, or_assoc, hsplit]
  · left
    refine ⟨hage, hrank, ?_⟩
    simp only [windowDamage, hcheck, ok_bind, Frame.layer_eq_error hrank, error_bind]

/-- An answer has the damage of the window at the rank, and of no other one. -/
theorem mem_points_of_windowDamage (hc : h.Consistent height) (hd : h.KeysDistinct) (harea : area.Solid)
    {area' : Region} (hok : h.windowDamage rank age area = .ok area') :
    ∃ first, age ≤ h.maxAge ∧ h.newest.layer rank = .ok first ∧
      ∀ p, p ∈ area'.points ↔ p ∈ area.points ∨ ∃ i ≤ age, p ∈ (h.frames.get i).damageOf first.key := by
  rcases windowDamage_cases hc hd age rank area with
    ⟨_, hrefused⟩ | ⟨_, _, hrefused⟩ | ⟨first, hage, hfirst, ⟨_, _, _, _, hrefused⟩ | ⟨_, answer, hanswer, hpoints⟩⟩
  · simp [hok] at hrefused
  · simp [hok] at hrefused
  · simp [hok] at hrefused
  · rw [hok] at hanswer
    cases hanswer
    exact ⟨first, hage, Frame.layer_eq_ok_iff.mpr hfirst, hpoints harea⟩

variable {config : Config} {actions : List Action}

/-- **The damage of one window.** After every run in which no push seats one key twice, whatever rank, age and area to
start from: the query for a window's damage fails iff the age is not kept, the newest frame has no layer of the rank,
or a walk as far back finds nothing. A window that is missing is named, with the age of the first frame that lacks it.
An answer has the points of the area to start from, and those of the window's damage in the newest frame and in the
`age` frames before it. For this the area to start from must have no rectangle without points (`Region.Solid`), and no
region has one unless a shift of it was not exact. -/
theorem windowDamage_of_replay (hrun : replay config actions = .ok h)
    (hdistinct : ∀ action ∈ actions, action.Distinct) (rank age : Nat) (area : Region) :
    ∃ newest, h.frame 0 = .ok newest ∧
      ((∃ fault, h.windowDamage rank age area = .error fault) ↔
        config.maxAge < age ∨ newest.layers.length ≤ rank ∨ h.track age rank .older = .ok none) ∧
      (∀ key step wanted, h.windowDamage rank age area = .error (.missingLayer key step wanted) →
        wanted = age ∧ (∃ first, newest.layer rank = .ok first ∧ first.key = key) ∧
          (∀ i < step, ∃ between, h.frame i = .ok between ∧ between.Has key) ∧
          ∃ between, h.frame step = .ok between ∧ ¬ between.Has key) ∧
      ∀ area', area.Solid → h.windowDamage rank age area = .ok area' → ∃ first, newest.layer rank = .ok first ∧
        ∀ p, p ∈ area'.points ↔ p ∈ area.points ∨
          ∃ i ≤ age, ∃ between layer, h.frame i = .ok between ∧ layer ∈ between.layers ∧ layer.key = first.key ∧
            p ∈ layer.damaged.points := by
  obtain ⟨hc, hmaxAge⟩ := consistent_of_replay hrun
  have hd := keysDistinct_of_replay hrun hdistinct
  have hframe : ∀ i ≤ h.maxAge, h.frame i = .ok (h.frames.get i) := fun i hi => frame_eq_ok hi
  rw [← hmaxAge]
  refine ⟨h.newest, h.frame_zero, ?_, ?_, ?_⟩
  · rcases windowDamage_cases hc hd age rank area with
      ⟨hlate, hrefused⟩ | ⟨hage, hrank, hrefused⟩ | ⟨first, hage, hfirst, houtcome⟩
    · exact iff_of_true ⟨_, hrefused⟩ (Or.inl hlate)
    · exact iff_of_true ⟨_, hrefused⟩ (Or.inr (Or.inl hrank))
    · have hrank : rank < h.newest.layers.length := (List.getElem?_eq_some_iff.mp hfirst).1
      rw [track_older_eq_none_iff hc hd hage hfirst]
      rcases houtcome with ⟨last, hlast, _, hmissing, hrefused⟩ | ⟨hstays, area', hok, _⟩
      · exact iff_of_true ⟨_, hrefused⟩ (Or.inr (Or.inr fun hstays => hmissing (hstays (last + 1) hlast)))
      · rw [hok]
        simp [hstays, Nat.not_lt_of_le hage, hrank]
  · intro key step wanted hfault
    rcases windowDamage_cases hc hd age rank area with
      ⟨_, hrefused⟩ | ⟨_, _, hrefused⟩ |
        ⟨first, hage, hfirst, ⟨last, hlast, hstays, hmissing, hrefused⟩ | ⟨_, _, hok, _⟩⟩
    · simp [hfault] at hrefused
    · simp [hfault] at hrefused
    · rw [hfault] at hrefused
      cases hrefused
      refine ⟨rfl, ⟨first, Frame.layer_eq_ok_iff.mpr hfirst, rfl⟩, ?_, _, hframe (last + 1) (by omega), hmissing⟩
      intro i hi
      exact ⟨_, hframe i (by omega), hstays i (by omega)⟩
    · simp [hfault] at hok
  · intro area' harea hok
    obtain ⟨first, hage, hfirst, hpoints⟩ := mem_points_of_windowDamage hc hd harea hok
    refine ⟨first, hfirst, fun p => (hpoints p).trans (or_congr_right ?_)⟩
    refine exists_congr fun i => and_congr_right fun hi => ?_
    rw [hframe i (by omega)]
    simp [Frame.damageOf]

/-- The window with a spot of damage at a place along its top. -/
def spotted (w : Window) (left : Int) : Window :=
  { w with pending := Region.ofRect ⟨Binary.ofInt left, 0, Binary.ofInt (left + 1), Binary.ofInt 8⟩ }

/-- Two windows before a background. One of them gets a spot in each frame, and rises past the other one. -/
def risingRun : List Action :=
  let screen : Size := ⟨Binary.ofInt 32, Binary.ofInt 8⟩
  let rising (left : Int) := spotted (sampleWindow 2 4 8) left
  let other := sampleWindow 1 16 8
  [.push [other, rising 0, sampleWindow 3 0 32] 7 screen, .push [other, rising 2, sampleWindow 3 0 32] 7 screen,
    .push [rising 4, other, sampleWindow 3 0 32] 7 screen]

/-- What a client has collected before it asks. -/
def collectedBefore : Region := Region.ofRect ⟨Binary.ofInt 28, 0, Binary.ofInt 30, Binary.ofInt 8⟩

/-- Window 2 is found at rank 2, and at rank 1 a frame earlier; three frames earlier there was nothing. -/
theorem windowDamage_of_risingRun :
    collectedBefore.points.Nonempty ∧ ∃ h, replay {} risingRun = .ok h ∧
      (∃ fault, h.windowDamage 2 3 collectedBefore = .error fault) ∧
      ∃ newest area first, h.frame 0 = .ok newest ∧ h.windowDamage 2 1 collectedBefore = .ok area ∧
        newest.layer 2 = .ok first ∧ ∀ p, p ∈ area.points ↔ p ∈ collectedBefore.points ∨
          ∃ i ≤ 1, ∃ between layer, h.frame i = .ok between ∧ layer ∈ between.layers ∧ layer.key = first.key ∧
            p ∈ layer.damaged.points := by
  have hdistinct : ∀ action ∈ risingRun, action.Distinct := by decide +kernel
  have hgone : (replay {} risingRun).map (fun h => h.track 3 2 .older) = .ok (.ok none) := by decide +kernel
  have hthere : (replay {} risingRun >>= fun h => h.windowDamage 2 1 collectedBefore).map (fun _ => ()) = .ok () := by
    decide +kernel
  refine ⟨Region.points_nonempty_iff.mpr (by decide +kernel), ?_⟩
  obtain ⟨h, hrun, hgone⟩ := map_eq_ok_iff.mp hgone
  rw [hrun, ok_bind, map_eq_ok_iff] at hthere
  obtain ⟨area, hthere, _⟩ := hthere
  obtain ⟨_, _, hfails, _, _⟩ := windowDamage_of_replay hrun hdistinct 2 3 collectedBefore
  obtain ⟨newest, hnewest, _, _, hanswer⟩ := windowDamage_of_replay hrun hdistinct 2 1 collectedBefore
  obtain ⟨first, hfirst, hpoints⟩ := hanswer area (Region.solid_ofRect _) hthere
  exact ⟨h, hrun, hfails.mpr (Or.inr (Or.inr hgone)), newest, area, first, hnewest, hthere, hfirst, hpoints⟩

/-! ## The screen -/

/-- **A window's damage is repainted.** After every run in which no push seats one key twice: ask for the damage of a
window in the newest frame and the `age` frames before. If the window's damage in each of them lies within its bounds
or its shadow there, then all of it that is on the screen is repainted in a buffer that lacks these frames, whatever
the blur. -/
theorem windowDamage_subset_repaintArea (hrun : replay config actions = .ok h)
    (hdistinct : ∀ action ∈ actions, action.Distinct) (hage : age + 1 ≤ config.maxAge) {first : Layer}
    (hfirst : h.layer 0 rank = .ok first) {collected : Region}
    (hcollected : h.windowDamage rank age Region.empty = .ok collected)
    (hinside : ∀ i ≤ age, ∀ between, h.frame i = .ok between → ∀ layer ∈ between.layers, layer.key = first.key →
      layer.damaged.points ⊆ layer.extent) (blur : Size) :
    ∃ report area newest, h.repaintArea (age + 1) blur = .ok (report, area) ∧ h.frame 0 = .ok newest ∧
      collected.points ∩ newest.bounds.points ⊆ area.points := by
  obtain ⟨hc, hmaxAge⟩ := consistent_of_replay hrun
  have hd := keysDistinct_of_replay hrun hdistinct
  rw [← hmaxAge] at hage
  obtain ⟨changes, hchanges, hsolid, hcovers⟩ := changesSince_spec hc.linksInto (age + 1) hage
  refine ⟨_, _, h.newest, repaintArea_ok hage hchanges blur, h.frame_zero, ?_⟩
  intro p ⟨hp, hscreen⟩
  rw [(solid_repainted blur).mem_points]
  replace hscreen : h.newest.bounds.covers p := Rect.mem_points_ofOrigin.mp hscreen
  cases hlost : h.lostSince (age + 1) with
  | true => exact (covers_repainted_of_lost hlost).mpr hscreen
  | false =>
    apply covers_repainted hlost hsolid blur hscreen
    obtain ⟨layer, _, hlayer, hpoints⟩ := mem_points_of_windowDamage hc hd Region.solid_empty hcollected
    obtain rfl : layer = first := by
      rw [History.layer, h.frame_zero, ok_bind, hlayer] at hfirst
      exact Except.ok.inj hfirst
    -- a frame in which the window is damaged at the point, and the step that leads to it
    rw [hpoints p, Region.points_empty, Set.mem_empty_iff_false, false_or] at hp
    obtain ⟨i, hi, damaged, hdamaged, hkey, hp⟩ := hp
    have hextent : p ∈ damaged.extent := hinside i hi _ (frame_eq_ok (by omega)) damaged hdamaged hkey hp
    exact (hcovers p).mpr ⟨i, by omega, Frame.changed_of_damages (hc.linksInto i (by omega)) hdamaged hp hextent⟩

/-- The spots of the last two frames are repainted. That of the last one is, with all of the window, because the
window rose. -/
theorem windowDamage_subset_repaintArea_risingRun :
    ∃ h collected report area newest, replay {} risingRun = .ok h ∧
      h.windowDamage 2 1 Region.empty = .ok collected ∧
      h.repaintArea 2 ⟨Binary.ofInt 1, 0⟩ = .ok (report, area) ∧ report.full = false ∧ h.frame 0 = .ok newest ∧
      collected.points ∩ newest.bounds.points ⊆ area.points := by
  have hdistinct : ∀ action ∈ risingRun, action.Distinct := by decide +kernel
  have hspots : (replay {} risingRun).map (fun h => decide (∀ i : Nat, i < 2 → ∀ layer ∈ (h.frames.get i).layers,
      (∀ rect ∈ layer.damaged.rects, rect.normalize.Numeric ∧ rect.normalize.meet layer.bounds = rect.normalize) ∧
        layer.bounds.Numeric)) = .ok true := by decide +kernel
  have hcollected : (replay {} risingRun >>= fun h => h.windowDamage 2 1 Region.empty).map (fun _ => ()) =
      .ok () := by decide +kernel
  have hfirst : (replay {} risingRun >>= fun h => h.layer 0 2).map (fun _ => ()) = .ok () := by decide +kernel
  have hfull : (replay {} risingRun >>= fun h => h.repaintArea 2 ⟨Binary.ofInt 1, 0⟩).map
      (fun result => result.1.full) = .ok false := by decide +kernel
  obtain ⟨h, hrun, hspots⟩ := map_eq_ok_iff.mp hspots
  rw [hrun, ok_bind, map_eq_ok_iff] at hcollected hfirst
  obtain ⟨collected, hcollected, _⟩ := hcollected
  obtain ⟨first, hfirst, _⟩ := hfirst
  have hinside : ∀ i ≤ 1, ∀ between, h.frame i = .ok between → ∀ layer ∈ between.layers, layer.key = first.key →
      layer.damaged.points ⊆ layer.extent := by
    intro i hi between hbetween layer hlayer _
    rw [frame_of_replay hrun (hi.trans (by decide))] at hbetween
    cases hbetween
    obtain ⟨hmeet, hbounds⟩ := of_decide_eq_true hspots i (by omega) layer hlayer
    exact Layer.damaged_subset_extent hmeet hbounds
  obtain ⟨report, area, newest, hok, hnewest, hsub⟩ :=
    windowDamage_subset_repaintArea hrun hdistinct (by decide) hfirst hcollected hinside ⟨Binary.ofInt 1, 0⟩
  rw [hrun, ok_bind, hok] at hfull
  have hfull : report.full = false := Except.ok.inj hfull
  exact ⟨h, collected, report, area, newest, hrun, hcollected, hok, hfull, hnewest, hsub⟩

end History

end Repaint
