import Repaint.Proofs.History.Run
import Mathlib.Data.Finset.Card

/-!
# Who came and who went

A push counts its newcomers among the layers that found no layer of their window, and the windows that are gone among
the entries that the rank index drops. The two counts are taken from different structures. They agree on who was there
before, because the index knows the windows of the last frame and no other, and drops one exactly when the new frame
lacks it:

* **newcomers** — the keys of the new frame that the last one lacks (`Pushed.countP_newcomers`);
* **gone** — the keys of the last frame that the new one lacks (`Pushed.countP_gone`), whatever the stacks;
* **one push** — so no window is counted twice, or lost (`Turnover.Exact`, `turnover_exact`);
* **the run** — newcomers less those gone are the layers of the newest frame (`turnovers_of_replay`).
-/

namespace Repaint

/-- The keys that stand in the frame. -/
def Frame.keys (f : Frame) : Finset Key := (f.layers.map Layer.key).toFinset

theorem Frame.Distinct.card_keys {f : Frame} (h : f.Distinct) : f.keys.card = f.layers.length := by
  rw [keys, List.toFinset_card_of_nodup h, List.length_map]

theorem topRank?_eq_none_iff {f : Frame} {key : Key} : topRank? f.layers key = none ↔ key ∉ f.keys := by
  simp [topRank?, lastRank?_eq_none_iff, Frame.keys]

/-- Counting the elements of a list whose keys are not in a set, no two elements having one key. -/
theorem countP_eq_card_sdiff {α : Type} {l : List α} {key : α → Key} {cond : α → Bool} {known : Finset Key}
    (h : (l.map key).Nodup) (hcond : ∀ a ∈ l, cond a = true ↔ key a ∉ known) :
    l.countP cond = ((l.map key).toFinset \ known).card := by
  calc l.countP cond
    _ = (l.map key).countP (fun k => k ∉ known) := by
      rw [List.countP_map]
      exact List.countP_congr fun a ha => by simp [hcond a ha]
    _ = ((l.map key).filter (fun k => k ∉ known)).toFinset.card := by
      rw [List.countP_eq_length_filter, List.toFinset_card_of_nodup (h.filter _)]
    _ = ((l.map key).toFinset \ known).card := by
      rw [List.toFinset_filter, Finset.sdiff_eq_filter]
      simp

namespace History

variable {h h' : History} {stack stack' : List Window} {generation : UInt64} {size : Size} {report : PushReport}

/-! ## The report of a push -/

/-- What a push says of itself. -/
theorem report_of_push (hi : h.Indexed) (hok : h.push stack generation size = .ok (report, h', stack')) :
    report = {
      frame := h'.pushes
      generation
      candidates := (candidatesOf stack).length
      layers := h'.newest.layers.length
      newLayers := h'.newest.layers.countP (fun layer => layer.prevRank.isNone)
      removed := h.index.entries.countP (fun entry =>
        (h.index.successor (h.lastLinked stack size) entry).isNone)
      capacity := h'.newest.capacity } ∧
    h'.newest.capacity = max h.frames.oldest.capacity (candidatesOf stack).length := by
  obtain ⟨spare, moved, hspare, _, _, hpush⟩ := push_eq hi stack generation size
  rw [hpush, bind_eq_ok_iff] at hok
  obtain ⟨index, _, hok⟩ := hok
  cases hok
  refine ⟨by simp [newest], ?_⟩
  rw [← hspare]
  simp [newest, Frame.capacity, linkedLayers, linkedBack]

/-- The newcomers among the layers are the keys that the last frame lacks. -/
theorem Pushed.countP_newcomers (hp : Pushed h stack generation size h') (hi : h.Indexed) (hd : h'.newest.Distinct) :
    h'.newest.layers.countP (fun layer => layer.prevRank.isNone) = (h'.newest.keys \ h.newest.keys).card := by
  refine countP_eq_card_sdiff hd fun layer hlayer => ?_
  rw [hp.layers] at hlayer
  obtain ⟨layer, _, rfl⟩ := List.mem_map.mp hlayer
  rw [Layer.setPrev_prevRank, Layer.setPrev_key, hi.ranks, Option.isNone_iff_eq_none, topRank?_eq_none_iff]

/-- The keys of the index are those of the newest frame. -/
theorem Indexed.toFinset_entries (hi : h.Indexed) : (h.index.entries.map Prod.fst).toFinset = h.newest.keys := by
  ext key
  rw [List.mem_toFinset, ← not_iff_not, ← topRank?_eq_none_iff, ← hi.ranks, Option.eq_none_iff_forall_ne_some]
  constructor
  · intro hkey rank hget
    obtain ⟨node, hmem, _⟩ := hi.pooled.get?_eq_some_iff.mp hget
    exact hkey (List.mem_map_of_mem hmem)
  · intro hnone hkey
    obtain ⟨entry, hentry, rfl⟩ := List.mem_map.mp hkey
    obtain ⟨rank, _, hget⟩ := hi.pooled.exists_rank hentry
    exact hnone rank hget

/-- An entry of the index moves on to the highest layer of its window in the new frame. -/
theorem Pushed.successor_eq (hp : Pushed h stack generation size h') (hi : h.Indexed) {entry : Key × Nat}
    (hentry : entry ∈ h.index.entries) :
    h.index.successor (h.lastLinked stack size) entry = topRank? h'.newest.layers entry.1 := by
  obtain ⟨rank, hnode, hget⟩ := hi.pooled.exists_rank hentry
  rw [hi.ranks] at hget
  obtain ⟨⟨old, hold, hkey⟩, _⟩ := topRank?_eq_some_iff.mp hget
  have hlinked := (linked_lastLinked hi hp.layers).next rank _
    ((lastLinked_getElem? h stack size rank).trans (congrArg _ hold))
  rw [Layer.setNext_key, hkey, topRank?_congr (h.map_key_lastLinked stack size), if_pos hget] at hlinked
  rw [RankIndex.successor, hnode, Option.bind_some, lastLinked_getElem?, hold, Option.map_some, Option.bind_some]
  exact hlinked

/-- The entries that the index drops are the keys that the new frame lacks. -/
theorem Pushed.countP_gone (hp : Pushed h stack generation size h') (hi : h.Indexed) :
    h.index.entries.countP (fun entry => (h.index.successor (h.lastLinked stack size) entry).isNone) =
      (h.newest.keys \ h'.newest.keys).card := by
  rw [← hi.toFinset_entries]
  refine countP_eq_card_sdiff hi.pooled.keys fun entry hentry => ?_
  rw [hp.successor_eq hi hentry, Option.isNone_iff_eq_none, topRank?_eq_none_iff]

end History

/-! ## One push -/

/-- A push of a run: its stack, the newest frame before and after it, and what it reported. -/
structure Turnover where
  stack : List Window
  before : Frame
  report : PushReport
  after : Frame

/-- The report counts what there is to be counted, and no window is lost between its counts. -/
structure Turnover.Exact (t : Turnover) : Prop where
  candidates : t.report.candidates = t.stack.countP Window.managed
  layers : t.report.layers = t.after.layers.length
  newLayers : t.report.newLayers = (t.after.keys \ t.before.keys).card
  removed : t.report.removed = (t.before.keys \ t.after.keys).card
  capacity : t.report.capacity = t.after.capacity
  layers_le : t.report.layers ≤ t.report.candidates
  candidates_le : t.report.candidates ≤ t.report.capacity
  newLayers_le : t.report.newLayers ≤ t.report.layers
  removed_le : t.report.removed ≤ t.before.layers.length
  /-- The windows of both frames are counted alike from either. -/
  kept : t.report.layers - t.report.newLayers = t.before.layers.length - t.report.removed

theorem length_candidatesOf (stack : List Window) : (candidatesOf stack).length = stack.countP Window.managed := by
  calc (candidatesOf stack).length
    _ = stack.zipIdx.countP (fun entry => entry.1.managed) := by
      rw [candidatesOf, List.length_reverse, List.countP_eq_length_filter]
    _ = (stack.zipIdx.map Prod.fst).countP Window.managed := by rw [List.countP_map, Function.comp_def]
    _ = stack.countP Window.managed := by rw [List.zipIdx_map_fst]

namespace History

variable {h h' : History} {stack stack' : List Window} {generation : UInt64} {size : Size} {report : PushReport}

theorem length_linkedLayers_le (h : History) (stack : List Window) (size : Size) :
    (h.linkedLayers stack size).length ≤ (candidatesOf stack).length := by
  rw [linkedLayers, linkedBack, List.length_map, seated, List.length_map, acceptedOf]
  exact List.length_filter_le _ _

/-- The report of a push between two frames without copies is exact. -/
theorem turnover_exact (hi : h.Indexed) (hbefore : h.newest.Distinct) (hafter : h'.newest.Distinct)
    (hok : h.push stack generation size = .ok (report, h', stack')) :
    Turnover.Exact ⟨stack, h.newest, report, h'.newest⟩ := by
  have hp := pushed_of_push hi hok
  obtain ⟨rfl, hcapacity⟩ := report_of_push hi hok
  have hlayers : h'.newest.layers.length ≤ (candidatesOf stack).length := by
    rw [hp.layers]
    exact h.length_linkedLayers_le stack size
  have hnew := hp.countP_newcomers hi hafter
  have hgone := hp.countP_gone hi
  -- the keys of either frame are those that are kept and those of its own
  have hold := Finset.card_sdiff_add_card_inter h.newest.keys h'.newest.keys
  have hcurrent := Finset.card_sdiff_add_card_inter h'.newest.keys h.newest.keys
  rw [Finset.inter_comm, hafter.card_keys] at hcurrent
  rw [hbefore.card_keys] at hold
  exact {
    candidates := length_candidatesOf stack
    layers := rfl
    newLayers := hnew
    removed := hgone
    capacity := rfl
    layers_le := hlayers
    candidates_le := by
      show (candidatesOf stack).length ≤ h'.newest.capacity
      omega
    newLayers_le := List.countP_le_length
    removed_le := by
      show h.index.entries.countP _ ≤ h.newest.layers.length
      omega
    kept := by
      show h'.newest.layers.length - h'.newest.layers.countP _ = h.newest.layers.length - h.index.entries.countP _
      omega }

/-! ## The run -/

/-- One action of a run, and its pushes so far, the last one first. -/
def actCounted (s : History × List Turnover) : Action → Except Fault (History × List Turnover)
  | .push stack generation size => do
    let (report, h, _) ← s.1.push stack generation size
    return (h, ⟨stack, s.1.newest, report, h.newest⟩ :: s.2)
  | .mark stack dirty => do return (← s.1.act (.mark stack dirty), s.2)

/-- The history after a run, and the pushes of the run, the last one first. -/
def replayCounted (config : Config) (actions : List Action) : Except Fault (History × List Turnover) := do
  actions.foldlM actCounted (← start config, [])

/-- The counts of a run add up to the newest frame. -/
structure Counts (h : History) (turnovers : List Turnover) : Prop where
  exact : ∀ t ∈ turnovers, t.Exact
  pushes : turnovers.length = h.pushes
  balance : (turnovers.map (fun t => t.report.newLayers)).sum =
    (turnovers.map (fun t => t.report.removed)).sum + h.newest.layers.length

variable {config : Config} {actions : List Action} {action : Action} {height : Nat} {turnovers : List Turnover}

theorem counts_start (hok : start config = .ok h) : h.Counts [] := by
  refine ⟨by simp, ?_, ?_⟩
  · unfold start at hok
    split at hok <;> cases hok
    rfl
  · rw [newest, frames_start hok]
    rfl

/-- An action that goes through can be counted, and keeps the balance. -/
theorem Counts.act (hcounts : h.Counts turnovers) (hc : h.Consistent height) (hd : h.KeysDistinct)
    (hdistinct : action.Distinct) (hok : h.act action = .ok h') :
    ∃ turnovers', actCounted (h, turnovers) action = .ok (h', turnovers') ∧ h'.Counts turnovers' := by
  have hcapacity := hc.capacity
  have hd' := hd.act hc hdistinct hok
  have hcapacity' := (hc.act hok).2
  cases action with
  | push stack generation size =>
    obtain ⟨⟨report, h₁, stack'⟩, hpush, rfl⟩ := map_eq_ok_iff.mp hok
    have hexact := turnover_exact hc.index (hd 0 (by omega)) (hd' 0 (by omega)) hpush
    refine ⟨⟨stack, h.newest, report, h₁.newest⟩ :: turnovers, ?_, ?_, ?_, ?_⟩
    · rw [actCounted, hpush]
      rfl
    · exact List.forall_mem_cons.mpr ⟨hexact, hcounts.exact⟩
    · rw [List.length_cons, hcounts.pushes, (pushed_of_push hc.index hpush).pushes]
    · have hbalance := hcounts.balance
      have hlayers : report.layers = h₁.newest.layers.length := hexact.layers
      have hnew : report.newLayers ≤ report.layers := hexact.newLayers_le
      have hgone : report.removed ≤ h.newest.layers.length := hexact.removed_le
      have hkept : report.layers - report.newLayers = h.newest.layers.length - report.removed := hexact.kept
      simp only [List.map_cons, List.sum_cons]
      omega
  | mark stack dirty =>
    have hm := marked_of_act hok
    refine ⟨turnovers, ?_, hcounts.exact, ?_, ?_⟩
    · rw [actCounted, hok]
      rfl
    · rw [hm.pushes, hcounts.pushes]
    · rw [hm.newest, length_marked, hcounts.balance]

/-- A run that goes through from a history without copies can be counted, and keeps the balance. -/
theorem Counts.run (hcounts : h.Counts turnovers) (hc : h.Consistent height) (hd : h.KeysDistinct)
    (hdistinct : ∀ action ∈ actions, action.Distinct) (hok : actions.foldlM History.act h = .ok h') :
    ∃ turnovers', actions.foldlM actCounted (h, turnovers) = .ok (h', turnovers') ∧ h'.Counts turnovers' := by
  induction actions generalizing h height turnovers with
  | nil =>
    cases hok
    exact ⟨turnovers, rfl, hcounts⟩
  | cons action actions ih =>
    obtain ⟨hfirst, hrest⟩ := List.forall_mem_cons.mp hdistinct
    rw [List.foldlM_cons, bind_eq_ok_iff] at hok
    obtain ⟨mid, hmid, hok⟩ := hok
    obtain ⟨turnovers₁, hcounted, hcounts₁⟩ := hcounts.act hc hd hfirst hmid
    obtain ⟨turnovers', hcounted', hcounts'⟩ := ih hcounts₁ (hc.act hmid).1 (hd.act hc hfirst hmid) hrest hok
    exact ⟨turnovers', by rw [List.foldlM_cons, hcounted, ok_bind, hcounted'], hcounts'⟩

/-- **The counts of a run add up.** In every run whose pushes give no two layers the same key, each push reports how
many keys are in the new frame and not in the one before, and how many are there no more. There are no more layers than
candidates, and no more candidates than slots. The layers that are not new are as many as those of the frame before
that are not gone. All newcomers of the run less all that are gone are the layers of the newest frame. -/
theorem turnovers_of_replay (hrun : replay config actions = .ok h) (hdistinct : ∀ action ∈ actions, action.Distinct) :
    ∃ turnovers newest, replayCounted config actions = .ok (h, turnovers) ∧ h.frame 0 = .ok newest ∧
      turnovers.length = h.pushes ∧
      (∀ t ∈ turnovers, t.Exact) ∧
      (turnovers.map (fun t => t.report.newLayers)).sum =
        (turnovers.map (fun t => t.report.removed)).sum + newest.layers.length := by
  rw [replay, bind_eq_ok_iff] at hrun
  obtain ⟨blank, hstart, hrun⟩ := hrun
  have hblank : blank.KeysDistinct := by
    intro age _
    rw [frames_start hstart]
    exact List.nodup_nil
  obtain ⟨turnovers, hcounted, hcounts⟩ :=
    (counts_start hstart).run (consistent_start hstart) hblank hdistinct hrun
  refine ⟨turnovers, h.newest, ?_, h.frame_zero, hcounts.pushes, hcounts.exact, hcounts.balance⟩
  rw [replayCounted, hstart, ok_bind, hcounted]

/-- The first push has three newcomers and the second none. With the third one of the three is gone. -/
theorem turnovers_of_sampleRun :
    ∃ h turnovers newest, replay {} sampleRun = .ok h ∧ replayCounted {} sampleRun = .ok (h, turnovers) ∧
      turnovers.map (fun t => (t.report.newLayers, t.report.removed)) = [(0, 1), (0, 0), (3, 0)] ∧
      (∀ t ∈ turnovers, t.Exact) ∧ h.frame 0 = .ok newest ∧ newest.layers.length = 2 := by
  have hcounts : (replayCounted {} sampleRun).map (fun s =>
      s.2.map (fun t => (t.report.newLayers, t.report.removed))) = .ok [(0, 1), (0, 0), (3, 0)] := by decide +kernel
  obtain ⟨h, hrun⟩ := replay_sampleRun {} (by decide)
  obtain ⟨turnovers, newest, hcounted, hnewest, _, hexact, hbalance⟩ := turnovers_of_replay hrun (by decide +kernel)
  rw [hcounted] at hcounts
  have hlist : turnovers.map (fun t => (t.report.newLayers, t.report.removed)) = [(0, 1), (0, 0), (3, 0)] :=
    Except.ok.inj hcounts
  refine ⟨h, turnovers, newest, hrun, hcounted, hlist, hexact, hnewest, ?_⟩
  have hnew := congrArg (fun l => (l.map Prod.fst).sum) hlist
  have hgone := congrArg (fun l => (l.map Prod.snd).sum) hlist
  simp only [List.map_map, Function.comp_def] at hnew hgone
  simp only [List.map_cons, List.map_nil, List.sum_cons, List.sum_nil] at hnew hgone
  omega

end History

end Repaint
