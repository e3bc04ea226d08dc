import Repaint.Frame
import Mathlib.Data.List.Nodup

/-!
# Ranks in a frame

Where a window stands in a frame. `topRank?` is the highest rank of a key; it is the only one, and the one that
`Frame.find?` gives, where no key stands twice (`Frame.Distinct`).
-/

namespace Repaint

/-- The highest rank of a layer that satisfies a condition. -/
def lastRank? (cond : Layer → Bool) : List Layer → Option Nat
  | [] => none
  | layer :: layers =>
    match lastRank? cond layers with
    | some rank => some (rank + 1)
    | none => if cond layer then some 0 else none

section LastRank

variable {cond cond' : Layer → Bool} {layers : List Layer}

theorem lastRank?_eq_none_iff : lastRank? cond layers = none ↔ ∀ layer ∈ layers, cond layer = false := by
  induction layers with
  | nil => simp [lastRank?]
  | cons layer layers ih =>
    rw [List.forall_mem_cons, ← ih, lastRank?]
    cases lastRank? cond layers with
    | none => simp
    | some rank => simp

theorem lastRank?_eq_some_iff {rank : Nat} :
    lastRank? cond layers = some rank ↔ (∃ layer, layers[rank]? = some layer ∧ cond layer = true) ∧
      ∀ above layer, rank < above → layers[above]? = some layer → cond layer = false := by
  induction layers generalizing rank with
  | nil => simp [lastRank?]
  | cons first layers ih =>
    rw [lastRank?]
    cases hrest : lastRank? cond layers with
    | some found =>
      -- further up a layer satisfies the condition, so the first layer is not the last such one
      obtain ⟨⟨layer, hlayer, hcond⟩, habove⟩ := ih.mp hrest
      constructor
      · intro h
        cases h
        refine ⟨⟨layer, hlayer, hcond⟩, fun above other hlt hother => ?_⟩
        cases above with
        | zero => omega
        | succ above => exact habove above other (by omega) hother
      · rintro ⟨⟨other, hother, hcond'⟩, habove'⟩
        cases rank with
        | zero =>
          rw [habove' (found + 1) layer (by omega) hlayer] at hcond
          cases hcond
        | succ rank =>
          have : lastRank? cond layers = some rank :=
            ih.mpr ⟨⟨other, hother, hcond'⟩, fun above l hlt hl => habove' (above + 1) l (by omega) hl⟩
          rw [hrest] at this
          cases this
          rfl
    | none =>
      have hnone := lastRank?_eq_none_iff.mp hrest
      constructor
      · intro h
        simp only at h
        split at h
        · rename_i hfirst
          cases h
          refine ⟨⟨first, rfl, hfirst⟩, fun above other hlt hother => ?_⟩
          cases above with
          | zero => omega
          | succ above => exact hnone other (List.mem_of_getElem? hother)
        · cases h
      · rintro ⟨⟨other, hother, hcond⟩, _⟩
        cases rank with
        | zero =>
          cases hother
          simp [hcond]
        | succ rank =>
          rw [hnone other (List.mem_of_getElem? hother)] at hcond
          cases hcond

theorem lastRank?_congr (h : ∀ layer ∈ layers, cond layer = cond' layer) :
    lastRank? cond layers = lastRank? cond' layers := by
  induction layers with
  | nil => rfl
  | cons layer layers ih =>
    rw [lastRank?, lastRank?, ih (fun l hl => h l (List.mem_cons_of_mem _ hl)),
      h layer List.mem_cons_self]

/-- Changing the layers in a way that the condition does not see. -/
theorem lastRank?_map (f : Layer → Layer) :
    lastRank? cond (layers.map f) = lastRank? (fun layer => cond (f layer)) layers := by
  induction layers with
  | nil => rfl
  | cons layer layers ih => rw [List.map_cons, lastRank?, lastRank?, ih]

end LastRank

/-- The highest rank at which a key stands. -/
def topRank? (layers : List Layer) (key : Key) : Option Nat :=
  lastRank? (fun layer => layer.key = key) layers

theorem topRank?_eq_some_iff {layers : List Layer} {key : Key} {rank : Nat} :
    topRank? layers key = some rank ↔ (∃ layer, layers[rank]? = some layer ∧ layer.key = key) ∧
      ∀ above layer, rank < above → layers[above]? = some layer → layer.key ≠ key := by
  simp [topRank?, lastRank?_eq_some_iff]

/-- Where a key stands depends on the list of keys alone. -/
theorem topRank?_congr {layers layers' : List Layer}
    (h : layers'.map Layer.key = layers.map Layer.key) (key : Key) :
    topRank? layers' key = topRank? layers key := by
  induction layers generalizing layers' with
  | nil =>
    rw [List.map_nil, List.map_eq_nil_iff] at h
    rw [h]
  | cons layer layers ih =>
    obtain ⟨layer', rest', rfl, hkey, hrest⟩ := List.map_eq_cons_iff.mp h
    have := ih hrest
    unfold topRank? at this ⊢
    rw [lastRank?, lastRank?, this, hkey]

/-- Different keys stand at different ranks. -/
theorem topRank?_inj {layers : List Layer} {key key' : Key} {rank : Nat}
    (h : topRank? layers key = some rank) (h' : topRank? layers key' = some rank) : key = key' := by
  obtain ⟨⟨layer, hlayer, hkey⟩, _⟩ := topRank?_eq_some_iff.mp h
  obtain ⟨⟨layer', hlayer', hkey'⟩, _⟩ := topRank?_eq_some_iff.mp h'
  rw [hlayer] at hlayer'
  cases hlayer'
  exact hkey.symm.trans hkey'

theorem topRank?_lt {layers : List Layer} {key : Key} {rank : Nat}
    (h : topRank? layers key = some rank) : rank < layers.length := by
  obtain ⟨⟨layer, hlayer, _⟩, _⟩ := topRank?_eq_some_iff.mp h
  exact (List.getElem?_eq_some_iff.mp hlayer).1

namespace Frame

theorem layer_eq_ok_iff {f : Frame} {rank : Nat} {layer : Layer} :
    f.layer rank = .ok layer ↔ f.layers[rank]? = some layer := by
  unfold Frame.layer
  cases f.layers[rank]? with
  | none => simp
  | some found => simp

theorem layer_eq_error {f : Frame} {rank : Nat} (h : f.layers.length ≤ rank) :
    f.layer rank = .error (.rankOutOfRange rank f.layers.length) := by
  rw [Frame.layer, List.getElem?_eq_none h]

theorem length_slots (f : Frame) (count : Nat) : (f.slots count).length = max f.capacity count := by
  simp only [slots, capacity, List.length_append, List.length_replicate]
  omega

/-- No key stands twice. -/
def Distinct (f : Frame) : Prop := (f.layers.map Layer.key).Nodup

variable {f : Frame}

/-- Layers of one window are one layer. -/
theorem Distinct.rank_unique (h : f.Distinct) {r s : Nat} {l l' : Layer} (hl : f.layers[r]? = some l)
    (hl' : f.layers[s]? = some l') (hkey : l.key = l'.key) : r = s := by
  obtain ⟨hr, rfl⟩ := List.getElem?_eq_some_iff.mp hl
  obtain ⟨hs, rfl⟩ := List.getElem?_eq_some_iff.mp hl'
  refine (List.getElem?_inj (by simpa using hr) h).mp ?_
  simp [hr, hs, hkey]

theorem Distinct.layer_unique (h : f.Distinct) {l l' : Layer} (hl : l ∈ f.layers) (hl' : l' ∈ f.layers)
    (hkey : l.key = l'.key) : l = l' :=
  List.inj_on_of_nodup_map h hl hl' hkey

theorem Distinct.find?_eq_some_iff (h : f.Distinct) {key : Key} {rank : Nat} :
    f.find? key = some rank ↔ ∃ layer, f.layers[rank]? = some layer ∧ layer.key = key := by
  rw [find?, List.findIdx?_eq_some_iff_getElem]
  constructor
  · rintro ⟨hlt, hkey, _⟩
    exact ⟨_, List.getElem?_eq_getElem hlt, by simpa using hkey⟩
  · rintro ⟨layer, hlayer, hkey⟩
    obtain ⟨hlt, rfl⟩ := List.getElem?_eq_some_iff.mp hlayer
    refine ⟨hlt, by simpa using hkey, fun below hbelow => ?_⟩
    have hne : f.layers[below].key ≠ key := by
      intro heq
      have := h.rank_unique (List.getElem?_eq_getElem (by omega)) hlayer (heq.trans hkey.symm)
      omega
    simpa using hne

/-- A window of the key stands in the frame. -/
def Has (f : Frame) (key : Key) : Prop := ∃ layer ∈ f.layers, layer.key = key

theorem has_of_getElem? {rank : Nat} {layer : Layer} (h : f.layers[rank]? = some layer) : f.Has layer.key :=
  ⟨layer, List.mem_of_getElem? h, rfl⟩

theorem exists_layer_of_key {rank : Nat} {key : Key} (h : (f.layers.map Layer.key)[rank]? = some key) :
    ∃ layer, f.layer rank = .ok layer ∧ layer.key = key := by
  simpa only [List.getElem?_map, Option.map_eq_some_iff, layer_eq_ok_iff] using h

theorem find?_eq_none_iff {key : Key} : f.find? key = none ↔ ¬ f.Has key := by
  simp [find?, Has, List.findIdx?_eq_none_iff]

/-- Where no key stands twice the highest rank is the lowest. -/
theorem Distinct.topRank?_eq_find? (h : f.Distinct) (key : Key) :
    topRank? f.layers key = f.find? key := by
  refine Option.ext fun rank => ?_
  rw [h.find?_eq_some_iff, topRank?_eq_some_iff]
  refine and_iff_left_of_imp ?_
  rintro ⟨layer, hlayer, hkey⟩ above other hlt hother heq
  have := h.rank_unique hlayer hother (hkey.trans heq.symm)
  omega

end Frame

end Repaint
