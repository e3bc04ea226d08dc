import Repaint.Proofs.Frame
import Repaint.Proofs.RankIndex
import Repaint.Proofs.History.Seat

/-!
# What a push does

A push of a window stack onto a history whose rank index is right for the newest frame:

* seating, linking and moving the index on never fail; a push is refused exactly for two new windows of one key
  (`push_cases`);
* the new frame's layers are those of the accepted windows, each linked to the rank that the index had for it,
  and the last frame's layers are linked forward to the new ones (`Pushed`);
* the index is right for the new frame (`Pushed.ranks`).

`Pushed` says all that a push does to the frames, and later developments open no other definition of it.
-/

namespace Repaint

/-! ## Linking -/

/-- The layer with another link to the frame before. -/
def Layer.setPrev (l : Layer) (prev : Option Nat) : Layer := { l with prevRank := prev }

/-- The layer with another link to the frame after. -/
def Layer.setNext (l : Layer) (next : Option Nat) : Layer := { l with nextRank := next }

@[simp] theorem Layer.setPrev_key (l : Layer) (prev : Option Nat) : (l.setPrev prev).key = l.key := rfl

@[simp] theorem Layer.setPrev_prevRank (l : Layer) (prev : Option Nat) :
    (l.setPrev prev).prevRank = prev := rfl

@[simp] theorem Layer.setPrev_window (l : Layer) (prev : Option Nat) :
    (l.setPrev prev).window = l.window := rfl

@[simp] theorem Layer.setNext_key (l : Layer) (next : Option Nat) : (l.setNext next).key = l.key := rfl

@[simp] theorem Layer.setNext_nextRank (l : Layer) (next : Option Nat) :
    (l.setNext next).nextRank = next := rfl

@[simp] theorem Layer.setNext_setNext (l : Layer) (next next' : Option Nat) :
    (l.setNext next).setNext next' = l.setNext next' := rfl

theorem Layer.setPrev_self {l : Layer} {prev : Option Nat} (h : l.prevRank = prev) :
    l.setPrev prev = l := by
  subst h
  rfl

theorem Layer.setNext_self {l : Layer} {next : Option Nat} (h : l.nextRank = next) :
    l.setNext next = l := by
  subst h
  rfl

/-- The layers, each with the rank that the index has for its window. -/
def linkedBack (index : RankIndex) (layers : List Layer) : List Layer :=
  layers.map (fun layer => layer.setPrev (index.get? layer.key))

/-- The highest rank, from `rank` on, of a layer whose window the index knows at a place of the last frame. -/
def nextAt (index : RankIndex) (rank : Nat) (layers : List Layer) (place : Nat) : Option Nat :=
  (lastRank? (fun layer => index.get? layer.key = some place) layers).map (rank + ·)

/-- The older layers, each with the highest rank of a newer layer that the index sends to it. -/
def linkedForward (index : RankIndex) (rank : Nat) (layers older : List Layer) : List Layer :=
  older.mapIdx (fun place old => old.setNext ((nextAt index rank layers place).or old.nextRank))

/-- The layers further up have the last word; the one at hand counts if they have none. -/
theorem nextAt_cons (index : RankIndex) (rank : Nat) (layer : Layer) (layers : List Layer) (place : Nat) :
    nextAt index rank (layer :: layers) place = (nextAt index (rank + 1) layers place).or
      (if index.get? layer.key = some place then some rank else none) := by
  unfold nextAt
  rw [lastRank?]
  cases lastRank? (fun layer => decide (index.get? layer.key = some place)) layers with
  | some last => simp [Nat.add_assoc, Nat.add_comm 1]
  | none =>
    by_cases h : index.get? layer.key = some place
    · simp [h]
    · simp [h]

theorem linkedForward_nil (index : RankIndex) (rank : Nat) (older : List Layer) :
    linkedForward index rank [] older = older := by
  refine List.ext_getElem? fun place => ?_
  rw [linkedForward, List.getElem?_mapIdx]
  cases older[place]? with
  | none => rfl
  | some old => exact congrArg some (Layer.setNext_self rfl)

theorem linkedBack_cons (index : RankIndex) (layer : Layer) (layers : List Layer) :
    linkedBack index (layer :: layers) =
      layer.setPrev (index.get? layer.key) :: linkedBack index layers := rfl

section Cons

variable {index : RankIndex} {layer : Layer}

/-- A newcomer is linked to nothing. -/
theorem linkedForward_of_none (h : index.get? layer.key = none) (rank : Nat) (layers older : List Layer) :
    linkedForward index rank (layer :: layers) older = linkedForward index (rank + 1) layers older := by
  simp [linkedForward, nextAt_cons, h]

/-- The link forward of a known window is written first, and layers further up may write over it. -/
theorem linkedForward_of_some {prev : Nat} (h : index.get? layer.key = some prev) (rank : Nat)
    (layers older : List Layer) :
    linkedForward index rank (layer :: layers) older = linkedForward index (rank + 1) layers
      (older.modify prev (fun old => old.setNext (some rank))) := by
  refine List.ext_getElem? fun place => ?_
  simp only [linkedForward, List.getElem?_mapIdx, List.getElem?_modify, nextAt_cons, h]
  cases older[place]? with
  | none => rfl
  | some old =>
    by_cases hplace : prev = place
    · simp [hplace]
    · simp [hplace]

end Cons

theorem linkLayers_eq (index : RankIndex) :
    ∀ (layers : List Layer) (rank : Nat) (older : List Layer),
      (∀ layer ∈ layers, layer.prevRank = none) →
      (∀ layer ∈ layers, ∀ prev, index.get? layer.key = some prev → prev < older.length) →
      linkLayers index rank layers older =
        .ok (linkedBack index layers, linkedForward index rank layers older) := by
  -- the rank and the older layers change with every layer that is linked, so both vary in the induction
  intro layers
  induction layers with
  | nil =>
    intro rank older _ _
    rw [linkedForward_nil]
    rfl
  | cons layer layers ih =>
    intro rank older hprev hrange
    obtain ⟨hfirst, hprev⟩ := List.forall_mem_cons.mp hprev
    obtain ⟨hlt, hrange⟩ := List.forall_mem_cons.mp hrange
    rw [linkedBack_cons, linkLayers, linkLayer]
    cases hget : index.get? layer.key with
    | none =>
      rw [linkedForward_of_none hget, Layer.setPrev_self hfirst]
      simp only [ok_bind]
      rw [ih (rank + 1) older hprev hrange]
      rfl
    | some prev =>
      rw [linkedForward_of_some hget]
      simp only [if_pos (hlt prev hget), ok_bind]
      rw [ih (rank + 1) _ hprev (by simpa using hrange)]
      rfl

/-! ## Enrolling -/

/-- The highest rank, from `rank` on, of a layer of the key that has no layer in the last frame. -/
def newcomerAt (rank : Nat) (layers : List Layer) (key : Key) : Option Nat :=
  (lastRank? (fun layer => layer.prevRank.isNone && layer.key = key) layers).map (rank + ·)

theorem newcomerAt_cons (rank : Nat) (layer : Layer) (layers : List Layer) (key : Key) :
    newcomerAt rank (layer :: layers) key = (newcomerAt (rank + 1) layers key).or
      (if layer.prevRank.isNone && layer.key = key then some rank else none) := by
  unfold newcomerAt
  rw [lastRank?]
  cases lastRank? (fun layer => layer.prevRank.isNone && layer.key = key) layers with
  | some last => simp [Nat.add_assoc, Nat.add_comm 1]
  | none =>
    by_cases h : (layer.prevRank.isNone && layer.key = key) = true
    · simp only [h, if_true]
      rfl
    · simp only [h]
      rfl

theorem enroll_of_some {layer : Layer} {prev : Nat} (h : layer.prevRank = some prev) (rank : Nat)
    (layers : List Layer) (index : RankIndex) :
    enroll rank (layer :: layers) index = enroll (rank + 1) layers index := by
  simp [enroll, h]

theorem enroll_of_none {layer : Layer} (h : layer.prevRank = none) (rank : Nat) (layers : List Layer)
    (index : RankIndex) :
    enroll rank (layer :: layers) index =
      (index.insert layer.key rank >>= fun index => enroll (rank + 1) layers index) := by
  simp [enroll, h]

/-- Enrolling adds the newcomers to what the index knows. -/
theorem get?_of_enroll :
    ∀ (layers : List Layer) (rank : Nat) (index index' : RankIndex), index.Pooled →
      enroll rank layers index = .ok index' →
      index'.Pooled ∧ ∀ key, index'.get? key = (newcomerAt rank layers key).or (index.get? key) := by
  intro layers
  induction layers with
  | nil =>
    intro rank index index' hpool hok
    cases hok
    exact ⟨hpool, fun key => rfl⟩
  | cons layer layers ih =>
    intro rank index index' hpool hok
    cases hprev : layer.prevRank with
    | some prev =>
      rw [enroll_of_some hprev] at hok
      obtain ⟨hpool', hget⟩ := ih (rank + 1) index index' hpool hok
      exact ⟨hpool', fun key => by simp [hget key, newcomerAt_cons, hprev]⟩
    | none =>
      rw [enroll_of_none hprev, bind_eq_ok_iff] at hok
      obtain ⟨mid, hmid, hok⟩ := hok
      cases hknown : index.get? layer.key with
      | some known =>
        rw [hpool.insert_of_some hknown] at hmid
        cases hmid
      | none =>
        obtain ⟨mid', hinsert, hpoolmid, hgetmid⟩ := hpool.insert hknown rank
        rw [hinsert] at hmid
        cases hmid
        obtain ⟨hpool', hget⟩ := ih (rank + 1) mid index' hpoolmid hok
        refine ⟨hpool', fun key => ?_⟩
        rw [hget key, hgetmid key, newcomerAt_cons, Option.or_assoc]
        by_cases hkey : layer.key = key
        · simp [hprev, hkey]
        · simp [hkey, Ne.symm hkey]

/-- The newcomers of a key among the layers, and one more if the index knows the key already. -/
def bearers (index : RankIndex) (layers : List Layer) (key : Key) : Nat :=
  layers.countP (fun layer => layer.prevRank.isNone && layer.key = key) +
    if (index.get? key).isSome then 1 else 0

/-- Newcomers are enrolled unless one of them has the key of another, or one that the index knows. -/
theorem enroll_cases :
    ∀ (layers : List Layer) (rank : Nat) (index : RankIndex), index.Pooled →
      ((∃ index', enroll rank layers index = .ok index') ∧ ∀ key, bearers index layers key ≤ 1) ∨
      ∃ key, enroll rank layers index = .error (.duplicateKey key) ∧ 2 ≤ bearers index layers key := by
  intro layers
  induction layers with
  | nil =>
    intro rank index _
    refine Or.inl ⟨⟨index, rfl⟩, fun key => ?_⟩
    rw [bearers, List.countP_nil]
    split <;> omega
  | cons layer layers ih =>
    intro rank index hpool
    cases hprev : layer.prevRank with
    | some prev =>
      have hsame : ∀ key, bearers index (layer :: layers) key = bearers index layers key := by
        intro key
        rw [bearers, List.countP_cons_of_neg (by simp [hprev]), bearers]
      simp only [enroll_of_some hprev, hsame]
      exact ih (rank + 1) index hpool
    | none =>
      rw [enroll_of_none hprev]
      cases hknown : index.get? layer.key with
      | some known =>
        refine Or.inr ⟨layer.key, by rw [hpool.insert_of_some hknown, error_bind], ?_⟩
        rw [bearers, List.countP_cons_of_pos (by simp [hprev]), hknown, Option.isSome_some, if_pos rfl]
        omega
      | none =>
        -- the key goes from the layers ahead to the index: its bearers stay as many
        obtain ⟨mid, hinsert, hpoolmid, hgetmid⟩ := hpool.insert hknown rank
        have hsame : ∀ key, bearers index (layer :: layers) key = bearers mid layers key := by
          intro key
          by_cases hkey : layer.key = key
          · subst hkey
            rw [bearers, bearers, List.countP_cons_of_pos (by simp [hprev]), hknown, hgetmid, if_pos rfl]
            simp
          · rw [bearers, bearers, List.countP_cons_of_neg (by simp [hkey]), hgetmid, if_neg (Ne.symm hkey)]
        simp only [hinsert, ok_bind, hsame]
        exact ih (rank + 1) mid hpoolmid

/-! ## The whole push -/

namespace History

variable {h h' : History} {stack stack' : List Window} {generation : UInt64} {size : Size}

/-- The index gives every window of the newest frame its highest rank, and knows no other window. -/
structure Indexed (h : History) : Prop where
  pooled : h.index.Pooled
  ranks : ∀ key, h.index.get? key = topRank? h.newest.layers key

/-- The newest frame with its layers linked forward to those of a stack. -/
def lastLinked (h : History) (stack : List Window) (size : Size) : Frame :=
  { h.newest with
    layers := linkedForward h.index 0 (seated stack size)
      (h.newest.layers.map (fun layer => layer.setNext none)) }

/-- The layers of a stack, linked back to the newest frame. -/
def linkedLayers (h : History) (stack : List Window) (size : Size) : List Layer :=
  linkedBack h.index (seated stack size)

theorem lastLinked_getElem? (h : History) (stack : List Window) (size : Size) (place : Nat) :
    (h.lastLinked stack size).layers[place]? = h.newest.layers[place]?.map (fun old => old.setNext
      (lastRank? (fun layer => h.index.get? layer.key = some place) (seated stack size))) := by
  simp only [lastLinked, linkedForward, List.getElem?_mapIdx, List.getElem?_map, nextAt]
  cases h.newest.layers[place]? with
  | none => rfl
  | some old =>
    cases lastRank? (fun layer => decide (h.index.get? layer.key = some place)) (seated stack size) with
    | none => rfl
    | some last => simp

/-- Linking forward changes no more than the links forward. -/
theorem map_lastLinked {α : Type} (h : History) (g : Layer → α) (hg : ∀ l next, g (l.setNext next) = g l)
    (stack : List Window) (size : Size) :
    (h.lastLinked stack size).layers.map g = h.newest.layers.map g := by
  refine List.ext_getElem? fun place => ?_
  rw [List.getElem?_map, lastLinked_getElem?, List.getElem?_map, Option.map_map]
  exact congrArg (Option.map · h.newest.layers[place]?) (funext fun old => hg old _)

theorem map_key_lastLinked (h : History) (stack : List Window) (size : Size) :
    (h.lastLinked stack size).layers.map Layer.key = h.newest.layers.map Layer.key :=
  h.map_lastLinked Layer.key (fun _ _ => rfl) stack size

theorem map_key_linkedLayers (h : History) (stack : List Window) (size : Size) :
    (h.linkedLayers stack size).map Layer.key = (seated stack size).map Layer.key := by
  rw [linkedLayers, linkedBack, List.map_map]
  rfl

/-- All of a push but enrolling the newcomers goes through whatever the stack. -/
theorem push_eq (hi : h.Indexed) (stack : List Window) (generation : UInt64) (size : Size) :
    ∃ (spare : List Layer) (moved : RankIndex),
      (seated stack size).length + spare.length =
        max h.frames.oldest.capacity (candidatesOf stack).length ∧
      moved.Pooled ∧
      (∀ key, moved.get? key = (h.index.get? key).bind (fun place =>
        (h.lastLinked stack size).layers[place]?.bind Layer.nextRank)) ∧
      h.push stack generation size = (do
        let index ← enroll 0 (h.linkedLayers stack size) moved
        let frame : Frame :=
          { size, generation, layers := h.linkedLayers stack size, spare }
        let report : PushReport := {
          frame := h.pushes + 1
          generation
          candidates := (candidatesOf stack).length
          layers := (h.linkedLayers stack size).length
          newLayers := (h.linkedLayers stack size).countP (fun layer => layer.prevRank.isNone)
          removed := h.index.entries.countP (fun entry =>
            (h.index.successor (h.lastLinked stack size) entry).isNone)
          capacity := frame.capacity }
        return (report,
          { frames := (h.frames.replaceNewest (h.lastLinked stack size)).push frame
            index
            uncovered := h.uncovered
            pushes := h.pushes + 1 },
          clearManaged stack)) := by
  have hslots := h.frames.oldest.length_slots (candidatesOf stack).length
  obtain ⟨spare, hseat, hspare⟩ := seat_eq size (candidatesOf stack) 0
    (h.frames.oldest.slots (candidatesOf stack).length) (by omega)
  have hprev : ∀ layer ∈ seated stack size, layer.prevRank = none := by
    intro layer hlayer
    obtain ⟨window, place, haccept, rfl⟩ := mem_seated hlayer
    exact Window.prevRank_toLayer haccept
  have hrange : ∀ key place, h.index.get? key = some place → place < h.newest.layers.length := by
    intro key place hget
    rw [hi.ranks] at hget
    exact topRank?_lt hget
  have hlink := linkLayers_eq h.index (seated stack size) 0
    (h.newest.layers.map (fun layer => layer.setNext none)) hprev
    (fun layer _ place hget => by simpa using hrange layer.key place hget)
  have hlength : (h.lastLinked stack size).layers.length = h.newest.layers.length := by
    simpa using congrArg List.length (h.map_key_lastLinked stack size)
  have hrange' : ∀ key place, h.index.get? key = some place →
      place < (h.lastLinked stack size).layers.length :=
    fun key place hkey => hlength ▸ hrange key place hkey
  obtain ⟨moved, hrelink, hpool, hget⟩ := hi.pooled.relink hrange'
  refine ⟨spare, moved, ?_, hpool, hget, ?_⟩
  · rw [← hslots, ← hspare]
    simp [seated, acceptedOf]
  · rw [push, hseat, ok_bind]
    show (linkLayers h.index 0 (seated stack size)
      (h.newest.layers.map (fun layer => layer.setNext none)) >>= _) = _
    rw [hlink, ok_bind]
    show (h.index.relink (h.lastLinked stack size) >>= _) = _
    rw [hrelink, ok_bind]
    rfl

/-- All that a push does to a history. -/
structure Pushed (h : History) (stack : List Window) (generation : UInt64) (size : Size)
    (h' : History) : Prop where
  capacity : h'.capacity = h.capacity
  newest_size : h'.newest.size = size
  newest_generation : h'.newest.generation = generation
  layers : h'.newest.layers = h.linkedLayers stack size
  last : 1 < h.capacity → h'.frames.get 1 = h.lastLinked stack size
  older : ∀ age, 0 < age → age + 1 < h.capacity → h'.frames.get (age + 1) = h.frames.get age
  pooled : h'.index.Pooled
  ranks : ∀ key, h'.index.get? key = topRank? h'.newest.layers key
  uncovered : h'.uncovered = h.uncovered
  pushes : h'.pushes = h.pushes + 1

/-- The index after a push is right for the new frame: a window that it knew has moved to the highest rank that
now links to it, and the others have been enrolled. -/
theorem get?_after_push (hi : h.Indexed) {moved index : RankIndex} (hpool : moved.Pooled)
    (hmoved : ∀ key, moved.get? key = (h.index.get? key).bind (fun place =>
        (h.lastLinked stack size).layers[place]?.bind Layer.nextRank))
    (henroll : enroll 0 (h.linkedLayers stack size) moved = .ok index) (key : Key) :
    index.get? key = topRank? (h.linkedLayers stack size) key := by
  have htop : topRank? (h.linkedLayers stack size) key = topRank? (seated stack size) key :=
    topRank?_congr (h.map_key_linkedLayers stack size) key
  have hnew : newcomerAt 0 (h.linkedLayers stack size) key =
      lastRank? (fun layer => (h.index.get? layer.key).isNone && layer.key = key)
        (seated stack size) := by
    simp only [newcomerAt, linkedLayers, linkedBack, lastRank?_map, Nat.zero_add, Option.map_id']
    rfl
  rw [(get?_of_enroll _ 0 moved index hpool henroll).2 key, hnew, hmoved key, htop]
  cases hknown : h.index.get? key with
  | none =>
    -- the window was not in the last frame: enrolling decides
    rw [Option.bind_none, Option.or_none]
    refine lastRank?_congr fun layer _ => ?_
    by_cases hkey : layer.key = key
    · simp [hkey, hknown]
    · simp [hkey]
  | some place =>
    -- the window was there: no newcomer has its key, and the link forward decides
    have hnone : lastRank? (fun layer => (h.index.get? layer.key).isNone && layer.key = key)
        (seated stack size) = none := by
      rw [lastRank?_eq_none_iff]
      intro layer _
      by_cases hkey : layer.key = key
      · simp [hkey, hknown]
      · simp [hkey]
    rw [hnone, Option.none_or, Option.bind_some, lastLinked_getElem?]
    rw [hi.ranks] at hknown
    rw [List.getElem?_eq_getElem (topRank?_lt hknown), Option.map_some, Option.bind_some,
      Layer.setNext_nextRank]
    refine lastRank?_congr fun layer _ => ?_
    rw [hi.ranks, decide_eq_decide]
    constructor
    · exact fun hplace => topRank?_inj hplace hknown
    · rintro rfl
      exact hknown

theorem pushed_of_push (hi : h.Indexed) {report : PushReport}
    (hok : h.push stack generation size = .ok (report, h', stack')) :
    Pushed h stack generation size h' := by
  obtain ⟨spare, moved, _, hpool, hmoved, hpush⟩ := push_eq hi stack generation size
  rw [hpush, bind_eq_ok_iff] at hok
  obtain ⟨index, henroll, hok⟩ := hok
  cases hok
  have hcapacity : 0 < h.frames.capacity := h.frames.capacity_pos
  refine ⟨by simp [History.capacity], ?_, ?_, ?_, ?_, ?_, ?_, ?_, rfl, rfl⟩
  · simp [newest]
  · simp [newest]
  · simp [newest]
  · intro hlt
    rw [Ring.get_push_succ _ _ (by simpa [History.capacity] using hlt), Ring.get_replaceNewest_zero]
  · intro age hage hlt
    have hlt : age + 1 < h.frames.capacity := hlt
    rw [Ring.get_push_succ _ _ (by simpa using hlt), Ring.get_replaceNewest _ _ hage (by omega)]
  · exact (get?_of_enroll _ 0 moved index hpool henroll).1
  · intro key
    simpa [newest] using get?_after_push hi hpool hmoved henroll key

/-- The newcomers of a key among the layers of a stack: all that claim it, if the index does not know it. -/
theorem countP_newcomers_linkedLayers (h : History) (stack : List Window) (size : Size) (key : Key) :
    (h.linkedLayers stack size).countP (fun layer => layer.prevRank.isNone && layer.key = key) =
      if h.index.get? key = none then claimants stack size key else 0 := by
  rw [linkedLayers, linkedBack, List.countP_map]
  split
  · rename_i hnew
    rw [← countP_key_seated]
    refine List.countP_congr fun layer _ => ?_
    by_cases hkey : layer.key = key <;> simp [hkey, hnew]
  · rename_i hknown
    rw [List.countP_eq_zero]
    intro layer _ hnewcomer
    obtain ⟨hnew, hkey⟩ := Bool.and_eq_true_iff.mp hnewcomer
    obtain rfl : layer.key = key := of_decide_eq_true hkey
    exact hknown (Option.isNone_iff_eq_none.mp hnew)

/-- A push goes through unless two windows claim a key that the index does not know. -/
theorem push_cases (hi : h.Indexed) (stack : List Window) (generation : UInt64) (size : Size) :
    ((∃ result, h.push stack generation size = .ok result) ∧
      ∀ key, h.index.get? key = none → claimants stack size key ≤ 1) ∨
    ∃ key, h.push stack generation size = .error (.duplicateKey key) ∧ h.index.get? key = none ∧
      2 ≤ claimants stack size key := by
  obtain ⟨spare, moved, _, hpool, hmoved, hpush⟩ := push_eq hi stack generation size
  have hbearers : ∀ key, bearers moved (h.linkedLayers stack size) key =
      if h.index.get? key = none then claimants stack size key else if (moved.get? key).isSome then 1 else 0 := by
    intro key
    rw [bearers, countP_newcomers_linkedLayers, hmoved]
    split
    · rename_i hnew
      simp [hnew]
    · exact Nat.zero_add _
  rw [hpush]
  rcases enroll_cases (h.linkedLayers stack size) 0 moved hpool with ⟨⟨index, henroll⟩, hfew⟩ | ⟨key, henroll, hmany⟩
  · refine Or.inl ⟨⟨_, by rw [henroll]; rfl⟩, fun key hnew => ?_⟩
    have hkey := hfew key
    rwa [hbearers, if_pos hnew] at hkey
  · rw [hbearers] at hmany
    split at hmany
    · rename_i hnew
      exact Or.inr ⟨key, by rw [henroll]; rfl, hnew, hmany⟩
    · split at hmany <;> omega

/-- A stack whose accepted windows have keys of their own is never refused. -/
theorem push_ok (hi : h.Indexed) (hdistinct : DistinctKeys stack size) (generation : UInt64) :
    ∃ result, h.push stack generation size = .ok result := by
  rcases push_cases hi stack generation size with ⟨hok, _⟩ | ⟨key, _, _, hmany⟩
  · exact hok
  · have := hdistinct.claimants_le key
    omega

end History

end Repaint
