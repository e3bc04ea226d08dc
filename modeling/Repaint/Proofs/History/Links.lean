import Repaint.Proofs.History.Run

/-!
# The links are the keys

Two neighbouring frames are linked exactly where a key stands in both, as long as no frame has a key twice.
The links then lead there and back again (`Linked.prev_iff_next`), at every age and however often the ring has wrapped
around (`links_of_replay`).
-/

namespace Repaint

namespace Linked

variable {newer older : Frame}

theorem prev_eq_find? (h : Linked newer older) (ho : older.Distinct) :
    ∀ layer ∈ newer.layers, layer.prevRank = older.find? layer.key := by
  intro layer hlayer
  rw [h.prev layer hlayer, ho.topRank?_eq_find?]

theorem next_eq_find? (h : Linked newer older) (hn : newer.Distinct) (ho : older.Distinct) :
    ∀ layer ∈ older.layers, layer.nextRank = newer.find? layer.key := by
  intro layer hlayer
  obtain ⟨rank, hrank⟩ := List.mem_iff_getElem?.mp hlayer
  have htop : topRank? older.layers layer.key = some rank := by
    rw [ho.topRank?_eq_find?, ho.find?_eq_some_iff]
    exact ⟨layer, hrank, rfl⟩
  rw [h.next rank layer hrank, if_pos htop, hn.topRank?_eq_find?]

/-- A link back and a link forward say the same: the two ranks are those of one key. -/
theorem prev_iff_next (h : Linked newer older) (hn : newer.Distinct) (ho : older.Distinct) {rank prev : Nat} :
    (∃ layer, newer.layers[rank]? = some layer ∧ layer.prevRank = some prev) ↔
      ∃ old, older.layers[prev]? = some old ∧ old.nextRank = some rank := by
  constructor
  · rintro ⟨layer, hlayer, hprev⟩
    rw [h.prev_eq_find? ho layer (List.mem_of_getElem? hlayer), ho.find?_eq_some_iff] at hprev
    obtain ⟨old, hold, hkey⟩ := hprev
    refine ⟨old, hold, ?_⟩
    rw [h.next_eq_find? hn ho old (List.mem_of_getElem? hold), hn.find?_eq_some_iff]
    exact ⟨layer, hlayer, hkey.symm⟩
  · rintro ⟨old, hold, hnext⟩
    rw [h.next_eq_find? hn ho old (List.mem_of_getElem? hold), hn.find?_eq_some_iff] at hnext
    obtain ⟨layer, hlayer, hkey⟩ := hnext
    refine ⟨layer, hlayer, ?_⟩
    rw [h.prev_eq_find? ho layer (List.mem_of_getElem? hlayer), ho.find?_eq_some_iff]
    exact ⟨old, hold, hkey.symm⟩

end Linked

namespace History

variable {config : Config} {actions : List Action} {h : History}

/-- **The links are the keys.** After every run in which no push seats one key twice, the layers of two
neighbouring frames are linked exactly where they have one key, and those of the newest frame to nothing newer.
The next push of that kind is not refused. -/
theorem links_of_replay (hrun : replay config actions = .ok h)
    (hdistinct : ∀ action ∈ actions, action.Distinct) :
    (∀ age < config.maxAge, ∃ newer older,
      h.frame age = .ok newer ∧ h.frame (age + 1) = .ok older ∧
      (∀ layer ∈ newer.layers, layer.prevRank = older.find? layer.key) ∧
      (∀ layer ∈ older.layers, layer.nextRank = newer.find? layer.key) ∧
      ∀ rank prev, (∃ layer, newer.layer rank = .ok layer ∧ layer.prevRank = some prev) ↔
        ∃ old, older.layer prev = .ok old ∧ old.nextRank = some rank) ∧
    (∃ newest, h.frame 0 = .ok newest ∧ ∀ layer ∈ newest.layers, layer.nextRank = none) ∧
    ∀ stack generation size, DistinctKeys stack size → ∃ result, h.push stack generation size = .ok result := by
  obtain ⟨hc, hmaxAge⟩ := consistent_of_replay hrun
  have hkeys := keysDistinct_of_replay hrun hdistinct
  have hcapacity := hc.capacity_eq
  refine ⟨fun age hage => ?_, ⟨h.newest, frame_eq_ok (Nat.zero_le _), hc.fresh⟩, ?_⟩
  · have hlinked := hc.linked age (by omega)
    have hnewer := hkeys age (by omega)
    have holder := hkeys (age + 1) (by omega)
    refine ⟨_, _, frame_eq_ok (by omega), frame_eq_ok (by omega), hlinked.prev_eq_find? holder,
      hlinked.next_eq_find? hnewer holder, fun rank prev => ?_⟩
    simp only [Frame.layer_eq_ok_iff]
    exact hlinked.prev_iff_next hnewer holder
  · exact fun stack generation size hdistinct => push_ok hc.index hdistinct generation

/-- Window 2 is at rank 1 in the newest frame and was at rank 2 in the frame before. -/
theorem links_of_sampleRun :
    ∃ h, replay { maxAge := 2 } sampleRun = .ok h ∧ (∀ action ∈ sampleRun, action.Distinct) ∧
      ∃ newer older, h.frame 0 = .ok newer ∧ h.frame 1 = .ok older ∧
        (∀ layer ∈ newer.layers, layer.prevRank = older.find? layer.key) ∧
        (∀ layer ∈ older.layers, layer.nextRank = newer.find? layer.key) ∧
        (∃ layer, newer.layer 1 = .ok layer ∧ layer.prevRank = some 2) ∧
        ∃ old, older.layer 2 = .ok old ∧ old.nextRank = some 1 := by
  have hdistinct : ∀ action ∈ sampleRun, action.Distinct := by decide +kernel
  have hlink : (replay { maxAge := 2 } sampleRun >>= fun h => h.layer 0 1).map Layer.prevRank = .ok (some 2) := by
    decide +kernel
  obtain ⟨h, hrun⟩ := replay_sampleRun { maxAge := 2 } (by decide)
  obtain ⟨newer, older, hnewer, holder, hprev, hnext, hmutual⟩ :=
    (links_of_replay hrun hdistinct).1 0 (by decide)
  rw [hrun, ok_bind, History.layer, hnewer, ok_bind, map_eq_ok_iff] at hlink
  exact ⟨h, hrun, hdistinct, newer, older, hnewer, holder, hprev, hnext, hlink, (hmutual 1 2).mp hlink⟩

end History

end Repaint
