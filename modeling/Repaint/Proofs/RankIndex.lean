import Repaint.RankIndex
import Repaint.Proofs.Frame
import Repaint.Proofs.Outcome
import Mathlib.Data.List.Perm.Basic

/-!
# The rank index is a finite map

Behind the answers of `RankIndex.get?` stands a pool of nodes. It stays in order (`RankIndex.Pooled`): no two
windows share a node, and no indexed window's node is free to be taken. On such a pool

* `insert` adds one entry to the map and changes no other (`Pooled.insert`);
* `relink` replaces each rank by the one its layer links to and drops the windows whose layer links to none
  (`Pooled.relink`), in whatever order the entries are listed.
-/

namespace Repaint

namespace RankIndex

/-- Each indexed window has a node of its own, and the free nodes are others. -/
structure Pooled (index : RankIndex) : Prop where
  keys : (index.entries.map Prod.fst).Nodup
  nodes : (index.entries.map Prod.snd ++ index.vacant).Nodup
  bounds : ∀ node ∈ index.entries.map Prod.snd ++ index.vacant, node < index.nodes.length

variable {index : RankIndex}

theorem pooled_empty : Pooled {} := ⟨List.nodup_nil, List.nodup_nil, by simp⟩

/-! ## Looking up -/

theorem lookup_eq_some_iff_mem {entries : List (Key × Nat)} (h : (entries.map Prod.fst).Nodup)
    {key : Key} {node : Nat} : entries.lookup key = some node ↔ (key, node) ∈ entries := by
  induction entries with
  | nil => simp
  | cons entry rest ih =>
    obtain ⟨key', node'⟩ := entry
    rw [List.map_cons, List.nodup_cons] at h
    rw [List.lookup_cons, List.mem_cons]
    by_cases hkey : key = key'
    · subst hkey
      have hfresh : (key, node) ∉ rest := fun hmem => h.1 (List.mem_map.mpr ⟨_, hmem, rfl⟩)
      simp [hfresh, eq_comm]
    · have hne : (key == key') = false := by simpa using hkey
      simp [hne, hkey, ih h.2]

theorem Pooled.get?_eq_some_iff (h : index.Pooled) {key : Key} {rank : Nat} :
    index.get? key = some rank ↔
      ∃ node, (key, node) ∈ index.entries ∧ index.nodes[node]? = some rank := by
  simp only [get?, Option.bind_eq_some_iff, lookup_eq_some_iff_mem h.keys]

/-- Every entry has a rank. -/
theorem Pooled.exists_rank (h : index.Pooled) {entry : Key × Nat} (hentry : entry ∈ index.entries) :
    ∃ rank, index.nodes[entry.2]? = some rank ∧ index.get? entry.1 = some rank := by
  have hlt := h.bounds entry.2 (List.mem_append_left _ (List.mem_map_of_mem hentry))
  have hnode := List.getElem?_eq_getElem hlt
  exact ⟨_, hnode, h.get?_eq_some_iff.mpr ⟨entry.2, hentry, hnode⟩⟩

theorem Pooled.lookup_eq_none (h : index.Pooled) {key : Key} (hnone : index.get? key = none) :
    index.entries.lookup key = none := by
  cases hlookup : index.entries.lookup key with
  | none => rfl
  | some node =>
    obtain ⟨rank, _, hget⟩ := h.exists_rank ((lookup_eq_some_iff_mem h.keys).mp hlookup)
    rw [hnone] at hget
    cases hget

/-! ## Inserting -/

/-- A key that is new takes a node that no other key has. -/
theorem Pooled.insert (h : index.Pooled) {key : Key} (hnew : index.get? key = none) (rank : Nat) :
    ∃ index', index.insert key rank = .ok index' ∧ index'.Pooled ∧
      ∀ k, index'.get? k = if k = key then some rank else index.get? k := by
  have hlookup := h.lookup_eq_none hnew
  have hkey : key ∉ index.entries.map Prod.fst := by
    intro hmem
    obtain ⟨entry, hentry, rfl⟩ := List.mem_map.mp hmem
    obtain ⟨_, _, hget⟩ := h.exists_rank hentry
    rw [hnew] at hget
    cases hget
  have hkeys : (key :: index.entries.map Prod.fst).Nodup := List.nodup_cons.mpr ⟨hkey, h.keys⟩
  have hused : ∀ {k node}, index.entries.lookup k = some node →
      node ∈ index.entries.map Prod.snd := fun hk =>
    List.mem_map_of_mem ((lookup_eq_some_iff_mem h.keys).mp hk)
  unfold RankIndex.insert
  rw [if_neg (by simp [hlookup])]
  cases hvacant : index.vacant with
  | nil =>
    refine ⟨_, rfl, ⟨hkeys, ?_, ?_⟩, ?_⟩
    · have hnodes := h.nodes
      simp only [hvacant, List.append_nil] at hnodes
      simp only [List.map_cons, List.append_nil, List.nodup_cons]
      refine ⟨fun hmem => ?_, hnodes⟩
      exact absurd (h.bounds _ (List.mem_append_left _ hmem)) (Nat.lt_irrefl _)
    · intro node hnode
      simp only [List.map_cons, List.append_nil, List.mem_cons] at hnode
      simp only [List.length_append, List.length_singleton]
      rcases hnode with rfl | hnode
      · omega
      · have := h.bounds node (List.mem_append_left _ hnode)
        omega
    · intro k
      by_cases hk : k = key
      · subst hk
        simp [get?]
      · have hne : (k == key) = false := by simpa using hk
        simp only [get?, List.lookup_cons, hne, if_neg hk]
        cases hlook : index.entries.lookup k with
        | none => rfl
        | some node =>
          have hlt := h.bounds node (List.mem_append_left _ (hused hlook))
          simp [List.getElem?_append_left hlt]
  | cons node vacant =>
    have hnodes := h.nodes
    rw [hvacant] at hnodes
    have hnode : node < index.nodes.length :=
      h.bounds node (List.mem_append_right _ (by rw [hvacant]; exact List.mem_cons_self))
    have hfree : node ∉ index.entries.map Prod.snd := fun hmem =>
      (List.nodup_append.mp hnodes).2.2 node hmem node List.mem_cons_self rfl
    refine ⟨_, rfl, ⟨hkeys, ?_, ?_⟩, ?_⟩
    · exact (List.perm_middle.nodup_iff).mp hnodes
    · intro other hother
      rw [List.length_set]
      refine h.bounds other ?_
      rw [hvacant]
      exact List.perm_middle.mem_iff.mpr hother
    · intro k
      by_cases hk : k = key
      · subst hk
        simp [get?, hnode]
      · have hne : (k == key) = false := by simpa using hk
        simp only [get?, List.lookup_cons, hne, if_neg hk]
        cases hlook : index.entries.lookup k with
        | none => rfl
        | some other =>
          have : node ≠ other := fun heq => hfree (heq ▸ hused hlook)
          simp [this]

/-- A key that is indexed is refused. -/
theorem Pooled.insert_of_some (h : index.Pooled) {key : Key} {known : Nat}
    (hknown : index.get? key = some known) (rank : Nat) :
    index.insert key rank = .error (.duplicateKey key) := by
  obtain ⟨node, hmem, _⟩ := h.get?_eq_some_iff.mp hknown
  rw [RankIndex.insert, (lookup_eq_some_iff_mem h.keys).mpr hmem]
  rfl

/-! ## Moving on to the next frame -/

/-- The rank in the next frame of the window that an entry stands for. -/
def successor (index : RankIndex) (frame : Frame) (entry : Key × Nat) : Option Nat :=
  index.nodes[entry.2]?.bind (fun rank => frame.layers[rank]?.bind Layer.nextRank)

/-- The state of a move that has visited `visited` and has `rest` ahead of it. -/
structure Moving (index : RankIndex) (frame : Frame) (visited rest : List (Key × Nat))
    (acc : RankIndex) : Prop where
  length : acc.nodes.length = index.nodes.length
  entries : acc.entries = visited.filter (fun entry => (index.successor frame entry).isSome)
  moved : ∀ entry ∈ acc.entries, acc.nodes[entry.2]? = index.successor frame entry
  ahead : ∀ entry ∈ rest, acc.nodes[entry.2]? = index.nodes[entry.2]?
  pool : (acc.entries.map Prod.snd ++ (rest.map Prod.snd ++ acc.vacant)).Perm
    (index.entries.map Prod.snd ++ index.vacant)

/-- One entry is moved on or gives its node back; the nodes of the others stay as they are. -/
theorem Moving.step {frame : Frame} {visited rest : List (Key × Nat)} {entry : Key × Nat}
    {acc : RankIndex} (h : Moving index frame visited (entry :: rest) acc)
    (hnodes : (index.entries.map Prod.snd ++ index.vacant).Nodup) {rank : Nat} {layer : Layer}
    (hrank : index.nodes[entry.2]? = some rank) (hlayer : frame.layers[rank]? = some layer) :
    ∃ acc', moveOn frame acc entry = .ok acc' ∧ Moving index frame (visited ++ [entry]) rest acc' := by
  have hacc : acc.nodes[entry.2]? = some rank := (h.ahead entry List.mem_cons_self).trans hrank
  have hsucc : index.successor frame entry = layer.nextRank := by
    simp [successor, hrank, hlayer]
  have hpool := (h.pool.nodup_iff).mpr hnodes
  rw [List.map_cons, List.cons_append] at hpool
  have hnode : acc.nodeRank entry.2 = .ok rank := by simp only [nodeRank, hacc]
  have hframe : frame.layer rank = .ok layer := Frame.layer_eq_ok_iff.mpr hlayer
  cases hnext : layer.nextRank with
  | none =>
    -- the entry goes and its node becomes vacant: the nodes in use are the same up to order
    have hread : moveOn frame acc entry = .ok { acc with vacant := entry.2 :: acc.vacant } := by
      rw [moveOn, hnode, ok_bind, hframe, ok_bind, hnext]
      rfl
    rw [hnext] at hsucc
    refine ⟨_, hread, h.length, ?_, h.moved, ?_, ?_⟩
    · simp [h.entries, hsucc]
    · exact fun other hother => h.ahead other (List.mem_cons_of_mem _ hother)
    · refine List.Perm.trans ?_ h.pool
      refine List.Perm.append_left _ ?_
      simp
  | some next =>
    -- the entry's node is written; no other entry has it, before or behind
    have hread : moveOn frame acc entry = .ok { acc with
        entries := acc.entries ++ [entry], nodes := acc.nodes.set entry.2 next } := by
      rw [moveOn, hnode, ok_bind, hframe, ok_bind, hnext]
      rfl
    rw [hnext] at hsucc
    have hlt : entry.2 < acc.nodes.length := (List.getElem?_eq_some_iff.mp hacc).1
    have hdisjoint := List.nodup_append.mp hpool
    refine ⟨_, hread, by simpa using h.length, ?_, ?_, ?_, ?_⟩
    · simp [h.entries, hsucc]
    · intro other hother
      rcases List.mem_append.mp hother with hother | hother
      · have hne : entry.2 ≠ other.2 := fun heq =>
          hdisjoint.2.2 other.2 (List.mem_map_of_mem hother) entry.2 List.mem_cons_self heq.symm
        simpa [hne] using h.moved other hother
      · rw [List.mem_singleton.mp hother, hsucc]
        simp [hlt]
    · intro other hother
      have hne : entry.2 ≠ other.2 := by
        intro heq
        refine (List.nodup_cons.mp hdisjoint.2.1).1 ?_
        rw [heq]
        exact List.mem_append_left _ (List.mem_map_of_mem hother)
      simpa [hne] using h.ahead other (List.mem_cons_of_mem _ hother)
    · simpa using h.pool

/-- The whole move, entry by entry. -/
theorem Moving.run {frame : Frame} (hnodes : (index.entries.map Prod.snd ++ index.vacant).Nodup)
    (hranks : ∀ entry ∈ index.entries, ∃ rank layer,
      index.nodes[entry.2]? = some rank ∧ frame.layers[rank]? = some layer) :
    ∀ (rest visited : List (Key × Nat)) (acc : RankIndex), visited ++ rest = index.entries →
      Moving index frame visited rest acc →
      ∃ acc', rest.foldlM (moveOn frame) acc = .ok acc' ∧ Moving index frame index.entries [] acc' := by
  intro rest
  induction rest with
  | nil =>
    intro visited acc hsplit h
    rw [List.append_nil] at hsplit
    exact ⟨acc, rfl, hsplit ▸ h⟩
  | cons entry rest ih =>
    intro visited acc hsplit h
    have hmem : entry ∈ index.entries := hsplit ▸ List.mem_append_right _ List.mem_cons_self
    obtain ⟨rank, layer, hrank, hlayer⟩ := hranks entry hmem
    obtain ⟨acc₁, hmove, h₁⟩ := h.step hnodes hrank hlayer
    obtain ⟨acc', hfold, h'⟩ := ih (visited ++ [entry]) acc₁ (by simpa using hsplit) h₁
    refine ⟨acc', ?_, h'⟩
    rw [List.foldlM_cons, hmove]
    exact hfold

/-- Moving on replaces every rank by the one that its layer links to. A window whose layer links to none is
dropped, and counted. -/
theorem Pooled.relink (h : index.Pooled) {frame : Frame}
    (hranks : ∀ key rank, index.get? key = some rank → rank < frame.layers.length) :
    ∃ index', index.relink frame = .ok
        (index', index.entries.countP (fun entry => (index.successor frame entry).isNone)) ∧
      index'.Pooled ∧
      ∀ key, index'.get? key =
        (index.get? key).bind (fun rank => frame.layers[rank]?.bind Layer.nextRank) := by
  have hread : ∀ entry ∈ index.entries, ∃ rank layer,
      index.nodes[entry.2]? = some rank ∧ frame.layers[rank]? = some layer := by
    intro entry hentry
    obtain ⟨rank, hnode, hget⟩ := h.exists_rank hentry
    exact ⟨rank, _, hnode, List.getElem?_eq_getElem (hranks _ _ hget)⟩
  have hstart : Moving index frame [] index.entries { index with entries := [] } :=
    ⟨rfl, rfl, by simp, fun _ _ => rfl, List.Perm.refl _⟩
  obtain ⟨index', hfold, h'⟩ := Moving.run h.nodes hread index.entries [] _ rfl hstart
  have hpool := h'.pool
  rw [List.map_nil, List.nil_append] at hpool
  have hpooled : index'.Pooled := by
    refine ⟨?_, hpool.nodup_iff.mpr h.nodes, ?_⟩
    · rw [h'.entries]
      exact h.keys.sublist (List.filter_sublist.map _)
    · intro node hnode
      rw [h'.length]
      exact h.bounds node (hpool.mem_iff.mp hnode)
  refine ⟨index', ?_, hpooled, ?_⟩
  · have hcount : index.entries.length - index'.entries.length =
        index.entries.countP (fun entry => (index.successor frame entry).isNone) := by
      rw [h'.entries, ← List.countP_eq_length_filter,
        List.length_eq_countP_add_countP (fun entry => (index.successor frame entry).isSome),
        Nat.add_sub_cancel_left]
      exact List.countP_congr fun entry _ => by cases index.successor frame entry <;> simp
    rw [← hcount]
    rw [RankIndex.relink, hfold, ok_bind, pure_eq_ok]
  · intro key
    refine Option.ext fun next => ?_
    rw [hpooled.get?_eq_some_iff, Option.bind_eq_some_iff]
    constructor
    · rintro ⟨node, hmem, hnode⟩
      have hmem' := hmem
      rw [h'.entries, List.mem_filter] at hmem'
      rw [h'.moved _ hmem] at hnode
      obtain ⟨rank, hrank, hnext⟩ := Option.bind_eq_some_iff.mp hnode
      exact ⟨rank, h.get?_eq_some_iff.mpr ⟨node, hmem'.1, hrank⟩, hnext⟩
    · rintro ⟨rank, hget, hnext⟩
      obtain ⟨node, hmem, hrank⟩ := h.get?_eq_some_iff.mp hget
      have hsucc : index.successor frame (key, node) = some next :=
        Option.bind_eq_some_iff.mpr ⟨rank, hrank, hnext⟩
      have hmem' : (key, node) ∈ index'.entries := by
        rw [h'.entries]
        exact List.mem_filter.mpr ⟨hmem, by simp [hsucc]⟩
      exact ⟨node, hmem', (h'.moved _ hmem').trans hsucc⟩

end RankIndex

end Repaint
