import Repaint.Proofs.RankIndex
import Mathlib.Data.Set.Card
import Mathlib.Logic.Function.Basic

/-!
# Runs of the rank index

Over any run of permitted steps the rank index does what a map from keys to ranks does (`run_refines`). The nodes that
it hands out, takes back and hands out again stay out of sight: a map has none. Nor does it matter in which order the
entries are visited when they move on. Each of these visits may have an order of its own, which decides the nodes that
later windows get, and no more.

* **one step** — from an index that stands for a map, a step that the map permits goes through, drops as many windows
  as the map does, and leaves an index that stands for the new map (`Stands.apply`);
* **the run** — by induction, with the map after every step (`Stands.run`).
-/

namespace Repaint

/-- The rank in the next frame of the layer of a rank, if it is linked to one. -/
def Frame.nextOf (frame : Frame) (rank : Nat) : Option Nat := frame.layers[rank]?.bind Layer.nextRank

/-- A step of the rank index. -/
inductive IndexStep where
  /-- A window is indexed. -/
  | insert (key : Key) (rank : Nat)
  /-- All entries move on to the next frame; they are visited as `order` lists them. -/
  | relink (frame : Frame) (order : List (Key × Nat) → List (Key × Nat))

namespace IndexStep

/-- What a step makes of an index, and how many windows it drops. -/
def apply (index : RankIndex) : IndexStep → Except Fault (RankIndex × Nat)
  | .insert key rank => do
    let index ← index.insert key rank
    return (index, 0)
  | .relink frame order => RankIndex.relink { index with entries := order index.entries } frame

/-- What a step makes of a map from keys to ranks. -/
def onMap (map : Key → Option Nat) : IndexStep → Key → Option Nat
  | .insert key rank => Function.update map key (some rank)
  | .relink frame _ => fun key => (map key).bind frame.nextOf

/-- Only new windows are indexed. Entries are visited once each, and move on from a frame that has all their ranks. -/
def Permitted (map : Key → Option Nat) : IndexStep → Prop
  | .insert key _ => map key = none
  | .relink frame order =>
    (∀ entries, (order entries).Perm entries) ∧ ∀ key rank, map key = some rank → rank < frame.layers.length

/-- The windows that a step drops from a map. -/
def dropped (map : Key → Option Nat) (step : IndexStep) : Set Key :=
  {key | (map key).isSome ∧ step.onMap map key = none}

/-- The index after some steps, and how many windows each of them dropped. -/
def run (index : RankIndex) : List IndexStep → Except Fault (RankIndex × List Nat)
  | [] => return (index, [])
  | step :: steps => do
    let (index, count) ← step.apply index
    let (index, counts) ← run index steps
    return (index, count :: counts)

/-- The map after some steps. -/
def mapAfter (map : Key → Option Nat) (steps : List IndexStep) : Key → Option Nat := steps.foldl onMap map

/-- Each step is permitted when its turn comes. -/
def PermittedAll : (Key → Option Nat) → List IndexStep → Prop
  | _, [] => True
  | map, step :: steps => step.Permitted map ∧ PermittedAll (step.onMap map) steps

end IndexStep

namespace RankIndex

variable {index : RankIndex} {map : Key → Option Nat}

/-! ## Entries in another order -/

theorem Pooled.reorder (h : index.Pooled) {entries : List (Key × Nat)} (hperm : entries.Perm index.entries) :
    Pooled { index with entries := entries } := by
  have hnodes : (entries.map Prod.snd ++ index.vacant).Perm (index.entries.map Prod.snd ++ index.vacant) :=
    (hperm.map Prod.snd).append_right _
  refine ⟨(hperm.map Prod.fst).nodup_iff.mpr h.keys, hnodes.nodup_iff.mpr h.nodes, fun node hnode => ?_⟩
  exact h.bounds node (hnodes.mem_iff.mp hnode)

theorem Pooled.get?_reorder (h : index.Pooled) {entries : List (Key × Nat)} (hperm : entries.Perm index.entries)
    (key : Key) : get? { index with entries := entries } key = index.get? key := by
  refine Option.ext fun rank => ?_
  rw [(h.reorder hperm).get?_eq_some_iff, h.get?_eq_some_iff]
  simp only [hperm.mem_iff]

/-! ## One step -/

theorem Pooled.successor_eq (h : index.Pooled) (frame : Frame) {entry : Key × Nat} (hentry : entry ∈ index.entries) :
    index.successor frame entry = (index.get? entry.1).bind frame.nextOf := by
  obtain ⟨rank, hnode, hget⟩ := h.exists_rank hentry
  rw [successor, hnode, hget]
  rfl

/-- The entries that have no successor are the windows that the map drops. -/
theorem Pooled.countP_eq_ncard (h : index.Pooled) (frame : Frame) :
    index.entries.countP (fun entry => (index.successor frame entry).isNone) =
      {key | (index.get? key).isSome ∧ (index.get? key).bind frame.nextOf = none}.ncard := by
  let gone := index.entries.filter (fun entry => (index.successor frame entry).isNone)
  have hset : {key | (index.get? key).isSome ∧ (index.get? key).bind frame.nextOf = none} =
      ((gone.map Prod.fst).toFinset : Set Key) := by
    refine Set.ext fun key => ?_
    rw [List.coe_toFinset]
    constructor
    · rintro ⟨hsome, hnone⟩
      obtain ⟨rank, hget⟩ := Option.isSome_iff_exists.mp hsome
      obtain ⟨node, hmem, _⟩ := h.get?_eq_some_iff.mp hget
      refine List.mem_map.mpr ⟨(key, node), List.mem_filter.mpr ⟨hmem, ?_⟩, rfl⟩
      rw [h.successor_eq frame hmem, Option.isNone_iff_eq_none]
      exact hnone
    · intro hkey
      obtain ⟨entry, hentry, rfl⟩ := List.mem_map.mp hkey
      obtain ⟨hmem, hnone⟩ := List.mem_filter.mp hentry
      obtain ⟨rank, _, hget⟩ := h.exists_rank hmem
      rw [h.successor_eq frame hmem, Option.isNone_iff_eq_none] at hnone
      exact ⟨Option.isSome_of_eq_some hget, hnone⟩
  -- no two entries have one key, so the keys are as many as the entries
  have hkeys : (gone.map Prod.fst).Nodup := h.keys.sublist (List.filter_sublist.map _)
  rw [hset, Set.ncard_coe_finset, List.toFinset_card_of_nodup hkeys, List.length_map, List.countP_eq_length_filter]

/-- The index answers as the map does, and its nodes are in order. -/
structure Stands (index : RankIndex) (map : Key → Option Nat) : Prop where
  pooled : index.Pooled
  get : ∀ key, index.get? key = map key

theorem stands_empty : Stands {} (fun _ => none) := ⟨pooled_empty, fun _ => rfl⟩

/-- A permitted step goes through, does to the index what it does to the map, and drops as many windows. -/
theorem Stands.apply (h : index.Stands map) {step : IndexStep} (hstep : step.Permitted map) :
    ∃ index', step.apply index = .ok (index', (step.dropped map).ncard) ∧ index'.Stands (step.onMap map) := by
  obtain ⟨hpooled, hget⟩ := h
  cases step with
  | insert key rank =>
    have hnew : index.get? key = none := (hget key).trans hstep
    obtain ⟨index', hinsert, hpooled', hget'⟩ := hpooled.insert hnew rank
    -- an insertion leaves all other keys, and so it drops none
    have hdropped : (IndexStep.insert key rank).dropped map = ∅ := by
      refine Set.eq_empty_of_forall_notMem fun k hk => ?_
      obtain ⟨hsome, hnone⟩ := hk
      by_cases heq : k = key
      · subst heq
        rw [IndexStep.onMap, Function.update_self] at hnone
        cases hnone
      · rw [IndexStep.onMap, Function.update_of_ne heq] at hnone
        rw [hnone] at hsome
        cases hsome
    refine ⟨index', ?_, hpooled', fun k => ?_⟩
    · rw [IndexStep.apply, hinsert, hdropped, Set.ncard_empty]
      rfl
    · rw [hget', IndexStep.onMap, Function.update_apply, hget]
  | relink frame order =>
    obtain ⟨horder, hranks⟩ := hstep
    have hperm := horder index.entries
    have hget₁ := hpooled.get?_reorder hperm
    obtain ⟨index', hrelink, hpooled', hget'⟩ := (hpooled.reorder hperm).relink fun key rank hrank =>
      hranks key rank ((hget key).symm.trans ((hget₁ key).symm.trans hrank))
    have hmap : index.get? = map := funext hget
    refine ⟨index', ?_, hpooled', fun key => ?_⟩
    · rw [IndexStep.apply, hrelink, (hpooled.reorder hperm).countP_eq_ncard frame]
      simp only [hget₁, hmap]
      rfl
    · rw [hget' key, hget₁, hget]
      rfl

/-! ## The run -/

/-- A run of permitted steps goes through, and the index stands for the map after it. -/
theorem Stands.run (h : index.Stands map) {steps : List IndexStep} (hsteps : IndexStep.PermittedAll map steps) :
    ∃ index' counts, IndexStep.run index steps = .ok (index', counts) ∧
      index'.Stands (IndexStep.mapAfter map steps) ∧ counts.length = steps.length ∧
      ∀ (place : Nat) (step : IndexStep), steps[place]? = some step →
        counts[place]? = some (step.dropped (IndexStep.mapAfter map (steps.take place))).ncard := by
  induction steps generalizing index map with
  | nil => exact ⟨index, [], rfl, h, rfl, by simp⟩
  | cons step steps ih =>
    obtain ⟨hfirst, hrest⟩ := hsteps
    obtain ⟨index₁, happly, h₁⟩ := h.apply hfirst
    obtain ⟨index', counts, hrun, h', hlength, hcounts⟩ := ih h₁ hrest
    refine ⟨index', (step.dropped map).ncard :: counts, ?_, h', congrArg (· + 1) hlength, ?_⟩
    · simp only [IndexStep.run, happly, ok_bind, hrun, pure_eq_ok]
    · intro place other hother
      cases place with
      | zero =>
        cases hother
        rfl
      | succ place => exact hcounts place other hother

theorem Pooled.key_unique (h : index.Pooled) {key key' : Key} {node : Nat} (hkey : index.entries.lookup key = some node)
    (hkey' : index.entries.lookup key' = some node) : key = key' := by
  have hnodes : (index.entries.map Prod.snd).Nodup := (List.nodup_append.mp h.nodes).1
  have heq := List.inj_on_of_nodup_map hnodes ((lookup_eq_some_iff_mem h.keys).mp hkey)
    ((lookup_eq_some_iff_mem h.keys).mp hkey') rfl
  exact congrArg Prod.fst heq

theorem Pooled.notMem_vacant (h : index.Pooled) {key : Key} {node : Nat}
    (hkey : index.entries.lookup key = some node) : node ∉ index.vacant := by
  intro hvacant
  have hnode : node ∈ index.entries.map Prod.snd := List.mem_map_of_mem ((lookup_eq_some_iff_mem h.keys).mp hkey)
  exact (List.nodup_append.mp h.nodes).2.2 node hnode node hvacant rfl

/-- **The rank index is a finite map.** From the empty index every run of permitted steps goes through, whatever the
orders in which the entries are visited. The index then has the ranks that a map has after the same steps, and no
others, and each step has dropped as many windows as it drops from the map. No two windows share a node, and no
window's node is free to be taken. -/
theorem run_refines (steps : List IndexStep) (hsteps : IndexStep.PermittedAll (fun _ => none) steps) :
    ∃ index counts, IndexStep.run {} steps = .ok (index, counts) ∧
      (∀ key, index.get? key = IndexStep.mapAfter (fun _ => none) steps key) ∧
      counts.length = steps.length ∧
      (∀ (place : Nat) (step : IndexStep), steps[place]? = some step →
        counts[place]? = some (step.dropped (IndexStep.mapAfter (fun _ => none) (steps.take place))).ncard) ∧
      (∀ key key' node, index.entries.lookup key = some node → index.entries.lookup key' = some node → key = key') ∧
      ∀ key node, index.entries.lookup key = some node → node ∉ index.vacant := by
  obtain ⟨index, counts, hrun, hstands, hlength, hcounts⟩ := stands_empty.run hsteps
  refine ⟨index, counts, hrun, hstands.get, hlength, hcounts, ?_, ?_⟩
  · exact fun key key' node hkey hkey' => hstands.pooled.key_unique hkey hkey'
  · exact fun key node hkey => hstands.pooled.notMem_vacant hkey

/-- A frame of three layers. In the next frame the middle one is gone and the others have changed places. -/
def swapFrame : Frame := { layers := [{ nextRank := some 1 }, {}, { nextRank := some 0 }] }

/-- Three windows are indexed and move on, the last one visited first. Then a fourth one is indexed. -/
def swapSteps : List IndexStep :=
  [.insert ⟨0⟩ 0, .insert ⟨1⟩ 1, .insert ⟨2⟩ 2, .relink swapFrame List.reverse, .insert ⟨3⟩ 2]

theorem permittedAll_swapSteps : IndexStep.PermittedAll (fun _ => none) swapSteps := by
  refine ⟨rfl, rfl, rfl, ⟨List.reverse_perm, fun key rank hrank => ?_⟩, rfl, trivial⟩
  simp only [IndexStep.onMap, Function.update_apply] at hrank
  split_ifs at hrank <;> cases hrank <;> decide

/-- The window that is gone is dropped, and the new one takes over its node. -/
theorem run_refines_swapSteps : IndexStep.PermittedAll (fun _ => none) swapSteps ∧
    ∃ index counts, IndexStep.run {} swapSteps = .ok (index, counts) ∧
      counts = [0, 0, 0, 1, 0] ∧ index.nodes.length = 3 ∧
      index.get? ⟨0⟩ = some 1 ∧ index.get? ⟨1⟩ = none ∧ index.get? ⟨2⟩ = some 0 ∧ index.get? ⟨3⟩ = some 2 := by
  have hresult : (IndexStep.run {} swapSteps).map (fun s => (s.1.nodes.length, s.2)) = .ok (3, [0, 0, 0, 1, 0]) := by
    decide
  obtain ⟨index, counts, hrun, hget, _⟩ := run_refines swapSteps permittedAll_swapSteps
  rw [hrun] at hresult
  obtain ⟨hnodes, hcounts⟩ := Prod.mk.inj (Except.ok.inj hresult)
  exact ⟨permittedAll_swapSteps, index, counts, hrun, hcounts, hnodes, hget _, hget _, hget _, hget _⟩

end RankIndex

end Repaint
