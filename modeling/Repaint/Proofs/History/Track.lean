import Repaint.History.Track
import Repaint.Proofs.History.Links

/-!
# A window is followed by its key

Following links back from the newest frame and following them forward to it are two walks over the same chain. As long
as no frame has a key twice, each walk stays with the key it starts from: it arrives iff the key stands in every frame
on the way, and then at its rank (`trackOlder_spec`, `trackNewer_spec`, each by induction over the frames on the way).
So the two walks are inverse to each other, and both stop at a frame without the key, whether or not it stands in older
ones again (`track_of_replay`).
-/

namespace Repaint

namespace History

variable {h : History} {height : Nat}

/-- The key stands in every frame up to an age. -/
def Stays (h : History) (key : Key) (age : Nat) : Prop := ∀ i ≤ age, (h.frames.get i).Has key

theorem stays_succ_iff {key : Key} {age : Nat} :
    h.Stays key (age + 1) ↔ h.Stays key age ∧ (h.frames.get (age + 1)).Has key := by
  constructor
  · exact fun hs => ⟨fun i hi => hs i (by omega), hs (age + 1) (Nat.le_refl _)⟩
  · rintro ⟨hs, hlast⟩ i hi
    rcases Nat.lt_or_eq_of_le hi with hlt | rfl
    · exact hs i (by omega)
    · exact hlast

/-- The walk to older frames, begun in the frame of an age, stays with the key of the layer that it starts from. -/
theorem trackOlder_spec (hc : h.Consistent height) (hd : h.KeysDistinct) :
    ∀ (steps age rank : Nat) (layer : Layer), age + steps < h.capacity →
      (h.frames.get age).layers[rank]? = some layer →
      ∃ found, h.trackOlder steps age rank = .ok found ∧ ∀ s, found = some s ↔
        (∀ i, age ≤ i → i ≤ age + steps → (h.frames.get i).Has layer.key) ∧
          (h.frames.get (age + steps)).find? layer.key = some s := by
  intro steps
  induction steps with
  | zero =>
    intro age rank layer hage hlayer
    have hrank : (h.frames.get age).find? layer.key = some rank :=
      (hd age hage).find?_eq_some_iff.mpr ⟨layer, hlayer, rfl⟩
    refine ⟨some rank, rfl, fun s => ?_⟩
    rw [Nat.add_zero, hrank]
    refine (and_iff_right fun i hi hi' => ?_).symm
    obtain rfl : i = age := by omega
    exact Frame.has_of_getElem? hlayer
  | succ steps ih =>
    intro age rank layer hage hlayer
    have hprev : layer.prevRank = (h.frames.get (age + 1)).find? layer.key :=
      (hc.linked age (by omega)).prev_eq_find? (hd (age + 1) (by omega)) layer (List.mem_of_getElem? hlayer)
    have hlast : age + (steps + 1) = age + 1 + steps := by omega
    rw [trackOlder, Frame.layer_eq_ok_iff.mpr hlayer, ok_bind, hprev, hlast]
    cases hfind : (h.frames.get (age + 1)).find? layer.key with
    | none =>
      -- the chain breaks here, and the key is missing here
      refine ⟨none, rfl, fun s => iff_of_false (Option.some_ne_none s).symm ?_⟩
      rintro ⟨hstays, _⟩
      exact Frame.find?_eq_none_iff.mp hfind (hstays (age + 1) (by omega) (by omega))
    | some prev =>
      obtain ⟨old, hold, hkey⟩ := (hd (age + 1) (by omega)).find?_eq_some_iff.mp hfind
      obtain ⟨found, htrack, hfound⟩ := ih (age + 1) prev old (by omega) hold
      refine ⟨found, htrack, fun s => ?_⟩
      rw [hfound, hkey]
      refine and_congr_left fun _ => ⟨fun hstays i hi hi' => ?_, fun hstays i hi => hstays i (by omega)⟩
      rcases Nat.lt_or_eq_of_le hi with hlt | rfl
      · exact hstays i hlt hi'
      · exact Frame.has_of_getElem? hlayer

/-- The walk to the newest frame stays with the key of the layer that it starts from. -/
theorem trackNewer_spec (hc : h.Consistent height) (hd : h.KeysDistinct) :
    ∀ (age rank : Nat) (layer : Layer), age < h.capacity → (h.frames.get age).layers[rank]? = some layer →
      ∃ found, h.trackNewer age rank = .ok found ∧ ∀ r, found = some r ↔
        h.Stays layer.key age ∧ h.newest.find? layer.key = some r := by
  intro age
  induction age with
  | zero =>
    intro rank layer hage hlayer
    have hrank : h.newest.find? layer.key = some rank :=
      (hd 0 hage).find?_eq_some_iff.mpr ⟨layer, hlayer, rfl⟩
    refine ⟨some rank, rfl, fun r => ?_⟩
    rw [hrank]
    refine (and_iff_right fun i hi => ?_).symm
    obtain rfl : i = 0 := Nat.le_zero.mp hi
    exact Frame.has_of_getElem? hlayer
  | succ age ih =>
    intro rank layer hage hlayer
    have hnext : layer.nextRank = (h.frames.get age).find? layer.key :=
      (hc.linked age hage).next_eq_find? (hd age (by omega)) (hd (age + 1) hage) layer (List.mem_of_getElem? hlayer)
    rw [trackNewer, Frame.layer_eq_ok_iff.mpr hlayer, ok_bind, hnext]
    cases hfind : (h.frames.get age).find? layer.key with
    | none =>
      refine ⟨none, rfl, fun r => iff_of_false (Option.some_ne_none r).symm ?_⟩
      rintro ⟨hstays, _⟩
      exact Frame.find?_eq_none_iff.mp hfind (hstays age (by omega))
    | some next =>
      obtain ⟨newer, hnewer, hkey⟩ := (hd age (by omega)).find?_eq_some_iff.mp hfind
      obtain ⟨found, htrack, hfound⟩ := ih next newer (by omega) hnewer
      refine ⟨found, htrack, fun r => ?_⟩
      rw [hfound, hkey, stays_succ_iff, and_iff_left (Frame.has_of_getElem? hlayer)]

/-! ## Both directions -/

section Track

variable {age rank : Nat} {layer : Layer}

theorem track_older (hc : h.Consistent height) (hd : h.KeysDistinct) (hage : age ≤ h.maxAge)
    (hlayer : h.newest.layers[rank]? = some layer) :
    ∃ found, h.track age rank .older = .ok found ∧ ∀ s, found = some s ↔
      h.Stays layer.key age ∧ (h.frames.get age).find? layer.key = some s := by
  have hcapacity := hc.capacity_eq
  obtain ⟨found, htrack, hfound⟩ := trackOlder_spec hc hd age 0 rank layer (by omega) hlayer
  refine ⟨found, ?_, fun s => ?_⟩
  · simp only [track, checkAge, if_pos hage, ok_bind, Frame.layer_eq_ok_iff.mpr hlayer, htrack]
  · rw [hfound, Nat.zero_add]
    exact and_congr_left fun _ => ⟨fun hstays i => hstays i (Nat.zero_le i), fun hstays i _ => hstays i⟩

/-- A walk to an older frame finds nothing iff the window is missing on the way. -/
theorem track_older_eq_none_iff (hc : h.Consistent height) (hd : h.KeysDistinct) (hage : age ≤ h.maxAge)
    (hlayer : h.newest.layers[rank]? = some layer) :
    h.track age rank .older = .ok none ↔ ¬ h.Stays layer.key age := by
  obtain ⟨found, htrack, hfound⟩ := track_older hc hd hage hlayer
  rw [htrack, Except.ok.injEq]
  constructor
  · intro hnone hstays
    cases hfind : (h.frames.get age).find? layer.key with
    | none => exact Frame.find?_eq_none_iff.mp hfind (hstays age (Nat.le_refl age))
    | some s =>
      have hsome : found = some s := (hfound s).mpr ⟨hstays, hfind⟩
      rw [hnone] at hsome
      cases hsome
  · intro hmissing
    exact Option.eq_none_iff_forall_ne_some.mpr fun s hs => hmissing ((hfound s).mp hs).1

theorem track_newer (hc : h.Consistent height) (hd : h.KeysDistinct) (hage : age ≤ h.maxAge)
    (hlayer : (h.frames.get age).layers[rank]? = some layer) :
    ∃ found, h.track age rank .newer = .ok found ∧ ∀ r, found = some r ↔
      h.Stays layer.key age ∧ h.newest.find? layer.key = some r := by
  have hcapacity := hc.capacity_eq
  obtain ⟨found, htrack, hfound⟩ := trackNewer_spec hc hd age rank layer (by omega) hlayer
  refine ⟨found, ?_, hfound⟩
  simp only [track, checkAge, if_pos hage, ok_bind, Frame.layer_eq_ok_iff.mpr hlayer, htrack]

end Track

variable {config : Config} {actions : List Action}

/-- **A window is followed by its key, there and back.** After every run in which no push seats one key twice, a rank of
the newest frame leads to a rank of an older one iff that leads back to it, and iff the window at the first one stands
in every frame up to the older one and has the second rank there. A walk from a window that is missing from one of
these frames finds nothing, in either direction. -/
theorem track_of_replay (hrun : replay config actions = .ok h) (hdistinct : ∀ action ∈ actions, action.Distinct) :
    ∀ age ≤ config.maxAge, ∃ newest old, h.frame 0 = .ok newest ∧ h.frame age = .ok old ∧
      (∀ r s layer, newest.layer r = .ok layer → s < old.layers.length →
        (h.track age r .older = .ok (some s) ↔ h.track age s .newer = .ok (some r)) ∧
        (h.track age s .newer = .ok (some r) ↔ h.Stays layer.key age ∧ old.find? layer.key = some s)) ∧
      (∀ r layer, newest.layer r = .ok layer → ¬ h.Stays layer.key age → h.track age r .older = .ok none) ∧
      ∀ s layer, old.layer s = .ok layer → ¬ h.Stays layer.key age → h.track age s .newer = .ok none := by
  intro age hage
  obtain ⟨hc, hmaxAge⟩ := consistent_of_replay hrun
  have hd := keysDistinct_of_replay hrun hdistinct
  have hcapacity := hc.capacity_eq
  rw [← hmaxAge] at hage
  refine ⟨h.newest, h.frames.get age, frame_eq_ok (Nat.zero_le _), frame_eq_ok hage, ?_, ?_, ?_⟩
  · intro r s layer hlayer hs
    rw [Frame.layer_eq_ok_iff] at hlayer
    have hother := List.getElem?_eq_getElem hs
    obtain ⟨found, holder, hfound⟩ := track_older hc hd hage hlayer
    obtain ⟨found', hnewer, hfound'⟩ := track_newer hc hd hage hother
    -- two layers lead to each other iff they have one key
    have hback : h.track age r .older = .ok (some s) ↔
        h.Stays layer.key age ∧ (h.frames.get age).layers[s].key = layer.key := by
      rw [holder, Except.ok.injEq, hfound, (hd age (by omega)).find?_eq_some_iff, hother]
      simp
    have hforth : h.track age s .newer = .ok (some r) ↔
        h.Stays layer.key age ∧ (h.frames.get age).layers[s].key = layer.key := by
      have hnewest : h.newest.Distinct := hd 0 (by omega)
      rw [hnewer, Except.ok.injEq, hfound', hnewest.find?_eq_some_iff, hlayer]
      constructor
      · rintro ⟨hstays, _, ⟨⟩, hkey⟩
        exact ⟨hkey ▸ hstays, hkey.symm⟩
      · rintro ⟨hstays, hkey⟩
        exact ⟨hkey ▸ hstays, layer, rfl, hkey.symm⟩
    refine ⟨hback.trans hforth.symm, hforth.trans (hback.symm.trans ?_)⟩
    rw [holder, Except.ok.injEq, hfound]
  · intro r layer hlayer hmissing
    obtain ⟨found, htrack, hfound⟩ := track_older hc hd hage (Frame.layer_eq_ok_iff.mp hlayer)
    rw [htrack, Option.eq_none_iff_forall_ne_some.mpr fun s hs => hmissing ((hfound s).mp hs).1]
  · intro s layer hlayer hmissing
    obtain ⟨found, htrack, hfound⟩ := track_newer hc hd hage (Frame.layer_eq_ok_iff.mp hlayer)
    rw [htrack, Option.eq_none_iff_forall_ne_some.mpr fun r hr => hmissing ((hfound r).mp hr).1]

/-- The sample run, and the window that was gone comes back. -/
def returningRun : List Action :=
  sampleRun ++ [.push (sampleWindow 1 0 8 :: sampleStack) 7 ⟨Binary.ofInt 32, Binary.ofInt 8⟩]

/-- Window 2 is followed over two frames to the rank that it had there and back; window 1, which stands in the newest
frame and two frames earlier but not between, is not. -/
theorem track_of_returningRun :
    ∃ h, replay { maxAge := 3 } returningRun = .ok h ∧ (∀ action ∈ returningRun, action.Distinct) ∧
      h.track 2 1 .older = .ok (some 2) ∧ h.track 2 2 .newer = .ok (some 1) ∧
      h.track 2 2 .older = .ok none ∧ h.track 2 1 .newer = .ok none := by
  have hdistinct : ∀ action ∈ returningRun, action.Distinct := by decide +kernel
  have hkeys : (replay { maxAge := 3 } returningRun).map (fun h => (h.newest.layers.map Layer.key,
      (h.frames.get 1).layers.map Layer.key, (h.frames.get 2).layers.map Layer.key)) =
      .ok ([⟨3⟩, ⟨2⟩, ⟨1⟩], [⟨3⟩, ⟨2⟩], [⟨3⟩, ⟨1⟩, ⟨2⟩]) := by decide +kernel
  obtain ⟨h, hrun, hkeys⟩ := map_eq_ok_iff.mp hkeys
  have hfollowed : (replay { maxAge := 3 } returningRun >>= fun h => h.track 2 1 .older) = .ok (some 2) := by
    decide +kernel
  rw [hrun, ok_bind] at hfollowed
  simp only [Prod.mk.injEq] at hkeys
  obtain ⟨hnewestKeys, hlastKeys, holdKeys⟩ := hkeys
  obtain ⟨newest, old, hnewest, hold, hboth, hnoneOlder, hnoneNewer⟩ := track_of_replay hrun hdistinct 2 (by decide)
  rw [frame_eq_ok (Nat.zero_le _)] at hnewest
  rw [frame_eq_ok (by rw [(consistent_of_replay hrun).2]; decide)] at hold
  cases hnewest
  cases hold
  have hmissing : ¬ h.Stays ⟨1⟩ 2 := by
    intro hstays
    have hmem : (⟨1⟩ : Key) ∈ (h.frames.get 1).layers.map Layer.key := List.mem_map.mpr (hstays 1 (by decide))
    rw [hlastKeys] at hmem
    exact absurd hmem (by decide)
  obtain ⟨layer, hlayer, _⟩ := Frame.exists_layer_of_key (show (h.newest.layers.map Layer.key)[1]? = some ⟨2⟩ by
    rw [hnewestKeys]; rfl)
  obtain ⟨back, hback, hbackKey⟩ := Frame.exists_layer_of_key
    (show (h.newest.layers.map Layer.key)[2]? = some ⟨1⟩ by rw [hnewestKeys]; rfl)
  obtain ⟨leaving, hleaving, hleavingKey⟩ := Frame.exists_layer_of_key
    (show ((h.frames.get 2).layers.map Layer.key)[1]? = some ⟨1⟩ by rw [holdKeys]; rfl)
  have hlength : 2 < (h.frames.get 2).layers.length := by
    have hlength := congrArg List.length holdKeys
    rw [List.length_map] at hlength
    rw [hlength]
    decide
  exact ⟨h, hrun, hdistinct, hfollowed, (hboth 1 2 layer hlayer hlength).1.mp hfollowed,
    hnoneOlder 2 back hback (hbackKey ▸ hmissing), hnoneNewer 1 leaving hleaving (hleavingKey ▸ hmissing)⟩

end History

end Repaint
