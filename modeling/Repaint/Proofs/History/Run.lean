import Repaint.Proofs.History.Occlusion
import Repaint.Proofs.History.Push

/-!
# Runs

A run starts from a history of blank frames and pushes stacks and marks occlusion in any order. Queries read
the history and leave it alone, so a run does not list them.

`Consistent` is the invariant of every run that is not refused, whatever the stacks:

* **index** — the rank index is right for the newest frame (`Indexed`);
* **stack** — the newest layers refer to windows of the last stack pushed, from its bottom to its top;
* **links** — every two neighbouring frames are linked by their windows' keys (`Linked`), at every age, and
  the newest frame is linked to nothing newer.

A push overwrites the oldest frame and changes the links of the newest one; a marking changes paint flags. Each
is one lemma (`Consistent.push`, `Consistent.mark`), and `consistent_of_replay` is the run.
-/

namespace Repaint

/-! ## Links between two frames -/

/-- The layers of two neighbouring frames are linked to the highest layer of the same key. -/
structure Linked (newer older : Frame) : Prop where
  prev : ∀ layer ∈ newer.layers, layer.prevRank = topRank? older.layers layer.key
  next : ∀ rank layer, older.layers[rank]? = some layer → layer.nextRank =
    if topRank? older.layers layer.key = some rank then topRank? newer.layers layer.key else none

namespace Linked

variable {newer newer' older : Frame}

/-- What the newer frame says of its own future, and of painting, does not matter. -/
theorem congr_newer (h : Linked newer older)
    (hlayers : newer'.layers.map (fun l => (l.key, l.prevRank)) =
      newer.layers.map (fun l => (l.key, l.prevRank))) : Linked newer' older := by
  have hkeys : newer'.layers.map Layer.key = newer.layers.map Layer.key := by
    have := congrArg (List.map Prod.fst) hlayers
    rwa [List.map_map, List.map_map] at this
  refine ⟨fun layer hlayer => ?_, fun rank layer hlayer => ?_⟩
  · have hmem : (layer.key, layer.prevRank) ∈ newer.layers.map (fun l => (l.key, l.prevRank)) :=
      hlayers ▸ List.mem_map_of_mem hlayer
    obtain ⟨layer', hlayer', heq⟩ := List.mem_map.mp hmem
    obtain ⟨hkey, hprev⟩ := Prod.mk.inj heq
    rw [← hkey, ← hprev]
    exact h.prev layer' hlayer'
  · rw [h.next rank layer hlayer, topRank?_congr hkeys]

/-- No link leads out of the older frame. -/
theorem prev_lt (h : Linked newer older) {layer : Layer} (hlayer : layer ∈ newer.layers) {prev : Nat}
    (hprev : layer.prevRank = some prev) : prev < older.layers.length := by
  rw [h.prev layer hlayer] at hprev
  exact topRank?_lt hprev

theorem next_lt (h : Linked newer older) {layer : Layer} (hlayer : layer ∈ older.layers) {next : Nat}
    (hnext : layer.nextRank = some next) : next < newer.layers.length := by
  obtain ⟨rank, hrank⟩ := List.mem_iff_getElem?.mp hlayer
  rw [h.next rank layer hrank] at hnext
  split at hnext
  · exact topRank?_lt hnext
  · cases hnext

end Linked

/-! ## Actions -/

/-- What can happen to a history. -/
inductive Action where
  | push (stack : List Window) (generation : UInt64) (size : Size)
  | mark (stack : List Window) (dirty : Region)

namespace Action

/-- The height of the last stack pushed, after the action. -/
def stackHeight (before : Nat) : Action → Nat
  | push stack _ _ => stack.length
  | mark _ _ => before

def isPush : Action → Bool
  | push _ _ _ => true
  | mark _ _ => false

/-- A push gives no two of its layers the same key. -/
def Distinct : Action → Prop
  | push stack _ size => DistinctKeys stack size
  | mark _ _ => True

/-- A marking is given a stack at least as high as the one pushed last. -/
def Fits (height : Nat) : Action → Prop
  | push _ _ _ => True
  | mark stack _ => height ≤ stack.length

instance : (action : Action) → Decidable action.Distinct
  | push stack _ size => inferInstanceAs (Decidable (DistinctKeys stack size))
  | mark _ _ => .isTrue trivial

instance (height : Nat) : (action : Action) → Decidable (action.Fits height)
  | push _ _ _ => .isTrue trivial
  | mark stack _ => inferInstanceAs (Decidable (height ≤ stack.length))

/-- Every action of a run keeps the rules: keys of their own, and stacks that fit. -/
def Orderly (height : Nat) : List Action → Prop
  | [] => True
  | action :: actions =>
    (action.Distinct ∧ action.Fits height) ∧ Orderly (action.stackHeight height) actions

instance decidableOrderly : (height : Nat) → (actions : List Action) → Decidable (Orderly height actions)
  | _, [] => .isTrue trivial
  | height, action :: actions =>
    have := decidableOrderly (action.stackHeight height) actions
    inferInstanceAs (Decidable (_ ∧ _))

end Action

/-! ## The invariant -/

namespace History

/-- What holds of a history after every run, the last stack pushed having `height` windows. -/
structure Consistent (h : History) (height : Nat) : Prop where
  capacity : 2 ≤ h.capacity
  index : h.Indexed
  windows : (h.newest.layers.map Layer.window).Pairwise (· > ·)
  inStack : ∀ layer ∈ h.newest.layers, layer.window < height
  fresh : ∀ layer ∈ h.newest.layers, layer.nextRank = none
  linked : ∀ age, age + 1 < h.capacity → Linked (h.frames.get age) (h.frames.get (age + 1))

variable {h h' : History} {height : Nat} {config : Config}

theorem Consistent.capacity_eq (hc : h.Consistent height) : h.capacity = h.maxAge + 1 := by
  have := hc.capacity
  unfold maxAge
  omega

/-- A stack as high as the last one pushed has every window that the newest layers refer to. -/
theorem Consistent.window_lt (hc : h.Consistent height) {stack : List Window} (hfits : height ≤ stack.length) :
    ∀ layer ∈ h.newest.layers, layer.window < stack.length := by
  intro layer hlayer
  exact Nat.lt_of_lt_of_le (hc.inStack layer hlayer) hfits

theorem frame_eq_ok {age : Nat} (hage : age ≤ h.maxAge) : h.frame age = .ok (h.frames.get age) := by
  simp only [frame, checkAge, if_pos hage]
  rfl

theorem frame_zero (h : History) : h.frame 0 = .ok h.newest := frame_eq_ok (Nat.zero_le _)

theorem capacity_start (hok : start config = .ok h) : h.capacity = config.maxAge + 1 ∧ config.maxAge ≠ 0 := by
  unfold start at hok
  split at hok
  · cases hok
  · cases hok
    exact ⟨Ring.capacity_replicate _ _, ‹_›⟩

theorem frames_start (hok : start config = .ok h) (age : Nat) :
    h.frames.get age = Frame.blank config.reserve := by
  unfold start at hok
  split at hok
  · cases hok
  · cases hok
    exact Ring.get_replicate _ _ _

theorem consistent_start (hok : start config = .ok h) : h.Consistent 0 := by
  obtain ⟨hcapacity, hpos⟩ := capacity_start hok
  have hframe := frames_start hok
  have hlayers : h.newest.layers = [] := by
    rw [newest, hframe]
    rfl
  have hindex : h.index = {} := by
    unfold start at hok
    split at hok <;> cases hok
    rfl
  refine ⟨by omega, ⟨?_, fun key => ?_⟩, ?_, ?_, ?_, fun age _ => ?_⟩
  · rw [hindex]
    exact RankIndex.pooled_empty
  · rw [hindex, hlayers]
    rfl
  · rw [hlayers]
    exact List.Pairwise.nil
  · simp [hlayers]
  · simp [hlayers]
  · rw [hframe, hframe]
    exact ⟨fun layer hlayer => absurd hlayer List.not_mem_nil, fun rank layer hlayer => by cases hlayer⟩

/-! ### A push -/

section Push

variable {stack : List Window} {generation : UInt64} {size : Size}

/-- The new frame and the last one are linked by their keys. -/
theorem linked_lastLinked (hi : h.Indexed) (hlayers : h'.newest.layers = h.linkedLayers stack size) :
    Linked h'.newest (h.lastLinked stack size) := by
  have hold (key : Key) :
      topRank? (h.lastLinked stack size).layers key = topRank? h.newest.layers key :=
    topRank?_congr (h.map_key_lastLinked stack size) key
  have hnew (key : Key) : topRank? h'.newest.layers key = topRank? (seated stack size) key := by
    rw [hlayers]
    exact topRank?_congr (h.map_key_linkedLayers stack size) key
  refine ⟨fun layer hlayer => ?_, fun rank layer hlayer => ?_⟩
  · rw [hlayers] at hlayer
    obtain ⟨layer, _, rfl⟩ := List.mem_map.mp hlayer
    rw [hold, Layer.setPrev_prevRank, Layer.setPrev_key, hi.ranks]
  · rw [lastLinked_getElem?, Option.map_eq_some_iff] at hlayer
    obtain ⟨old, hgetOld, rfl⟩ := hlayer
    rw [Layer.setNext_nextRank, Layer.setNext_key, hold, hnew]
    split
    · -- the layer is the highest of its key, so the layers sent to it are those of its key
      rename_i htop
      refine lastRank?_congr fun layer _ => ?_
      rw [hi.ranks, decide_eq_decide]
      constructor
      · exact fun hrank => topRank?_inj hrank htop
      · rintro hkey
        rw [hkey]
        exact htop
    · -- a higher layer of its key has taken every link
      rename_i htop
      rw [lastRank?_eq_none_iff]
      intro layer _
      rw [decide_eq_false_iff_not, hi.ranks]
      intro hrank
      obtain ⟨⟨other, hother, hkey⟩, _⟩ := topRank?_eq_some_iff.mp hrank
      rw [hgetOld] at hother
      cases hother
      rw [← hkey] at hrank
      exact htop hrank

/-- A push keeps the invariant, and only the keys of the last frame's layers and their links to the past are
needed for it. -/
theorem Consistent.push (hc : h.Consistent height) (hp : Pushed h stack generation size h') :
    h'.Consistent stack.length := by
  have hcapacity := hp.capacity
  have hpos := hc.capacity
  have hlayers : h'.newest.layers = h.linkedLayers stack size := hp.layers
  refine ⟨by omega, ⟨hp.pooled, hp.ranks⟩, ?_, ?_, ?_, fun age hage => ?_⟩
  · rw [hlayers, linkedLayers, linkedBack, List.map_map]
    exact seated_window_decreasing stack size
  · rw [hlayers]
    intro layer hlayer
    obtain ⟨layer, hseated, rfl⟩ := List.mem_map.mp hlayer
    rw [Layer.setPrev_window]
    exact seated_window_lt hseated
  · rw [hlayers]
    intro layer hlayer
    obtain ⟨layer, hseated, rfl⟩ := List.mem_map.mp hlayer
    obtain ⟨window, place, haccept, rfl⟩ := mem_seated hseated
    exact Window.nextRank_toLayer haccept
  -- the new pair is linked by the push, the pair behind it keeps its links, and the others only grow older
  · rcases age with _ | _ | age
    · show Linked h'.newest (h'.frames.get 1)
      rw [hp.last (by omega)]
      exact linked_lastLinked hc.index hlayers
    · rw [hp.last (by omega), hp.older 1 (by omega) (by omega)]
      exact (hc.linked 0 (by omega)).congr_newer (h.map_lastLinked _ (fun _ _ => rfl) stack size)
    · rw [hp.older (age + 1) (by omega) (by omega), hp.older (age + 2) (by omega) (by omega)]
      exact hc.linked (age + 1) (by omega)

end Push

/-! ### A marking -/

section Mark

variable {dirty : Region}

/-- A marking changes no more than paint flags. -/
theorem map_painted {α : Type} (g : Layer → α) (hg : ∀ l flag, g (l.setPaint flag) = g l)
    (dirty : Region) (layers : List Layer) : (painted dirty layers).map g = layers.map g := by
  induction layers with
  | nil => rfl
  | cons layer layers ih => rw [painted_cons, List.map_cons, List.map_cons, ih, hg]

theorem map_marked {α : Type} (g : Layer → α) (hg : ∀ l flag, g (l.setPaint flag) = g l)
    (f : Frame) (dirty : Region) : (f.marked dirty).layers.map g = f.layers.map g := by
  unfold Frame.marked
  cases hlayers : f.layers with
  | nil => rw [hlayers]
  | cons bottom above => rw [List.map_cons, List.map_cons, map_painted g hg, hg]

theorem length_marked (f : Frame) (dirty : Region) : (f.marked dirty).layers.length = f.layers.length := by
  simpa using congrArg List.length (map_marked Layer.key (fun _ _ => rfl) f dirty)

theorem Consistent.mark (hc : h.Consistent height) (hm : Marked h dirty h') :
    h'.Consistent height := by
  have hcapacity := hm.capacity
  have hpos := hc.capacity
  have hmap {α : Type} (g : Layer → α) (hg : ∀ l flag, g (l.setPaint flag) = g l) :
      h'.newest.layers.map g = h.newest.layers.map g := by
    rw [hm.newest]
    exact map_marked g hg _ _
  refine ⟨by omega, ⟨hm.index ▸ hc.index.pooled, fun key => ?_⟩, ?_, ?_, ?_, fun age hage => ?_⟩
  · rw [hm.index, hc.index.ranks, topRank?_congr (hmap Layer.key fun _ _ => rfl)]
  · rw [hmap Layer.window fun _ _ => rfl]
    exact hc.windows
  · rw [← List.forall_mem_map (f := Layer.window) (P := (· < height)), hmap Layer.window fun _ _ => rfl,
      List.forall_mem_map]
    exact hc.inStack
  · rw [← List.forall_mem_map (f := Layer.nextRank) (P := (· = none)), hmap Layer.nextRank fun _ _ => rfl,
      List.forall_mem_map]
    exact hc.fresh
  · rcases age with _ | age
    · show Linked h'.newest (h'.frames.get 1)
      rw [hm.older 1 (by omega) (by omega)]
      exact (hc.linked 0 (by omega)).congr_newer (hmap _ fun _ _ => rfl)
    · rw [hm.older (age + 1) (by omega) (by omega), hm.older (age + 2) (by omega) (by omega)]
      exact hc.linked (age + 1) (by omega)

/-- A marking of a stack as high as the last one pushed goes through. -/
theorem Consistent.occlude_ok (hc : h.Consistent height) {stack : List Window} (hfits : height ≤ stack.length)
    (dirty : Region) :
    ∃ h', h.occlude stack dirty = .ok (h.occlusionReport dirty, h',
      flagWindows (painted dirty h.newest.layers.tail) stack) ∧ Marked h dirty h' :=
  h.occlude_ok dirty fun layer hlayer => hc.window_lt hfits layer (List.mem_of_mem_tail hlayer)

end Mark

/-! ## The run -/

/-- The history after an action. -/
def act (h : History) : Action → Except Fault History
  | .push stack generation size => (h.push stack generation size).map (fun result => result.2.1)
  | .mark stack dirty => (h.occlude stack dirty).map (fun result => result.2.1)

/-- The history after a run, from blank frames on. -/
def replay (config : Config) (actions : List Action) : Except Fault History := do
  actions.foldlM act (← start config)

/-- The height of the last stack that a run has pushed; zero before the first one. -/
def lastHeight (actions : List Action) : Nat := actions.foldl Action.stackHeight 0

variable {actions : List Action} {action : Action}

theorem Consistent.pushed (hc : h.Consistent height) {stack : List Window} {generation : UInt64} {size : Size}
    (hok : h.act (.push stack generation size) = .ok h') : Pushed h stack generation size h' := by
  obtain ⟨_, hpush, rfl⟩ := map_eq_ok_iff.mp hok
  exact pushed_of_push hc.index hpush

theorem marked_of_act {stack : List Window} {dirty : Region} (hok : h.act (.mark stack dirty) = .ok h') :
    Marked h dirty h' := by
  obtain ⟨_, hmark, rfl⟩ := map_eq_ok_iff.mp hok
  exact marked_of_occlude hmark

/-- What one action preserves. -/
theorem Consistent.act (hc : h.Consistent height) (hok : h.act action = .ok h') :
    h'.Consistent (action.stackHeight height) ∧ h'.capacity = h.capacity := by
  cases action with
  | push stack generation size =>
    have hp := hc.pushed hok
    exact ⟨hc.push hp, hp.capacity⟩
  | mark stack dirty =>
    have hm := marked_of_act hok
    exact ⟨hc.mark hm, hm.capacity⟩

/-- **The invariant of every run.** -/
theorem consistent_of_replay (hrun : replay config actions = .ok h) :
    h.Consistent (lastHeight actions) ∧ h.maxAge = config.maxAge := by
  rw [replay, bind_eq_ok_iff] at hrun
  obtain ⟨blank, hstart, hrun⟩ := hrun
  have hkept : h.Consistent (lastHeight actions) ∧ h.capacity = blank.capacity := by
    apply foldlM_rel (R := fun h height => h.Consistent height ∧ h.capacity = blank.capacity) ?_ ?_ hrun
    · exact ⟨consistent_start hstart, rfl⟩
    · rintro action _ mid height mid' ⟨hc, hcapacity⟩ hok
      obtain ⟨hc', hcapacity'⟩ := hc.act hok
      exact ⟨hc', hcapacity'.trans hcapacity⟩
  obtain ⟨hc, hcapacity⟩ := hkept
  refine ⟨hc, ?_⟩
  rw [maxAge, hcapacity, (capacity_start hstart).1]
  rfl

/-- After a run the frames up to the age that is asked for at the start are kept. -/
theorem frame_of_replay (hrun : replay config actions = .ok h) {age : Nat} (hage : age ≤ config.maxAge) :
    h.frame age = .ok (h.frames.get age) := frame_eq_ok ((consistent_of_replay hrun).2 ▸ hage)

/-- **Induction over a run.** What holds of blank frames beside `a`, and is kept by every action that a consistent
history takes, holds after the run. -/
theorem replay_rel {α : Type} {R : History → α → Prop} {g : α → Action → α} {a : α}
    (hstart : ∀ blank, start config = .ok blank → R blank a)
    (hact : ∀ action ∈ actions, ∀ height h a h', h.Consistent height → R h a → h.act action = .ok h' →
      R h' (g a action))
    (hrun : replay config actions = .ok h) : R h (actions.foldl g a) := by
  rw [replay, bind_eq_ok_iff] at hrun
  obtain ⟨blank, hblank, hrun⟩ := hrun
  suffices hkept : (∃ height, h.Consistent height) ∧ R h (actions.foldl g a) from hkept.2
  apply foldlM_rel (R := fun h a => (∃ height, h.Consistent height) ∧ R h a) ?_ ?_ hrun
  · exact ⟨⟨0, consistent_start hblank⟩, hstart blank hblank⟩
  · rintro action haction mid a mid' ⟨⟨height, hc⟩, hmid⟩ hok
    exact ⟨⟨_, (hc.act hok).1⟩, hact action haction height mid a mid' hc hmid hok⟩

/-! ### Runs that are not refused -/

theorem Consistent.act_ok (hc : h.Consistent height) (hdistinct : action.Distinct)
    (hfits : action.Fits height) : ∃ h', h.act action = .ok h' := by
  cases action with
  | push stack generation size =>
    obtain ⟨⟨report, h', stack'⟩, hpush⟩ := push_ok hc.index hdistinct generation
    exact ⟨h', map_eq_ok_iff.mpr ⟨_, hpush, rfl⟩⟩
  | mark stack dirty =>
    obtain ⟨h', hmark, _⟩ := hc.occlude_ok hfits dirty
    exact ⟨h', map_eq_ok_iff.mpr ⟨_, hmark, rfl⟩⟩

/-- A run that keeps the rules goes through to its end. -/
theorem replay_ok (hconfig : config.maxAge ≠ 0) (hrules : Action.Orderly 0 actions) :
    ∃ h, replay config actions = .ok h := by
  have hstart : ∃ blank, start config = .ok blank := by
    simp only [start, if_neg hconfig]
    exact ⟨_, rfl⟩
  obtain ⟨blank, hstart⟩ := hstart
  -- a run goes through from any consistent history, not only from blank frames
  suffices hrest : ∀ (actions : List Action) (height : Nat) (h : History), h.Consistent height →
      Action.Orderly height actions → ∃ h', actions.foldlM History.act h = .ok h' by
    obtain ⟨h, hok⟩ := hrest actions 0 blank (consistent_start hstart) hrules
    exact ⟨h, bind_eq_ok_iff.mpr ⟨blank, hstart, hok⟩⟩
  intro actions
  induction actions with
  | nil => exact fun _ h _ _ => ⟨h, rfl⟩
  | cons action actions ih =>
    intro height h hc hrules
    obtain ⟨⟨hdistinct, hfits⟩, hrules⟩ := hrules
    obtain ⟨mid, hmid⟩ := hc.act_ok hdistinct hfits
    obtain ⟨h', hok⟩ := ih _ mid (hc.act hmid).1 hrules
    exact ⟨h', by rw [List.foldlM_cons, hmid, ok_bind, hok]⟩

/-! ### Keys of their own -/

/-- No frame that is kept has two layers of one key. -/
def KeysDistinct (h : History) : Prop := ∀ age, age < h.capacity → (h.frames.get age).Distinct

theorem KeysDistinct.act (hd : h.KeysDistinct) (hc : h.Consistent height) (hdistinct : action.Distinct)
    (hok : h.act action = .ok h') : h'.KeysDistinct := by
  have hpos := hc.capacity
  cases action with
  | push stack generation size =>
    have hp := hc.pushed hok
    intro age hage
    rw [hp.capacity] at hage
    rcases age with _ | _ | age
    · show (h'.newest.layers.map Layer.key).Nodup
      rw [hp.layers, map_key_linkedLayers, map_key_seated]
      exact hdistinct
    · show ((h'.frames.get 1).layers.map Layer.key).Nodup
      rw [hp.last (by omega), map_key_lastLinked]
      exact hd 0 (by omega)
    · rw [hp.older (age + 1) (by omega) (by omega)]
      exact hd (age + 1) (by omega)
  | mark stack dirty =>
    have hm := marked_of_act hok
    intro age hage
    rw [hm.capacity] at hage
    rcases age with _ | age
    · show (h'.newest.layers.map Layer.key).Nodup
      rw [hm.newest, map_marked Layer.key fun _ _ => rfl]
      exact hd 0 hage
    · rw [hm.older (age + 1) (by omega) hage]
      exact hd (age + 1) hage

/-- In a run whose pushes give no two layers the same key, no frame that is kept has two. -/
theorem keysDistinct_of_replay (hrun : replay config actions = .ok h)
    (hdistinct : ∀ action ∈ actions, action.Distinct) : h.KeysDistinct := by
  apply replay_rel (R := fun h (_ : Unit) => h.KeysDistinct) (g := fun u _ => u) (a := ()) ?_ ?_ hrun
  · intro blank hstart age _
    rw [frames_start hstart]
    exact List.nodup_nil
  · intro action haction height mid _ mid' hc hd hok
    exact hd.act hc (hdistinct action haction) hok

end History

/-! ## A run -/

/-- A window at a place along the screen's top. -/
def sampleWindow (handle : UInt32) (left width : Int) : Window :=
  { key := ⟨handle⟩, origin := ⟨Binary.ofInt left, 0⟩, size := ⟨Binary.ofInt width, Binary.ofInt 8⟩ }

/-- A window before a background. -/
def sampleStack : List Window := [sampleWindow 2 4 8, sampleWindow 3 0 32]

/-- The left of the screen, half of the window with it. -/
def sampleDirty : Region := Region.ofRect ⟨0, 0, Binary.ofInt 6, Binary.ofInt 8⟩

/-- Two windows before a background: they come, trade places, and one of them goes. -/
def sampleRun : List Action :=
  let screen : Size := ⟨Binary.ofInt 32, Binary.ofInt 8⟩
  let gone := sampleWindow 1 0 8
  let raised := sampleWindow 2 4 8 :: gone :: [sampleWindow 3 0 32]
  [.push (gone :: sampleStack) 7 screen, .push raised 7 screen, .mark raised sampleDirty,
    .push sampleStack 7 screen]

theorem History.replay_sampleRun (config : Config) (hconfig : config.maxAge ≠ 0) :
    ∃ h, replay config sampleRun = .ok h := replay_ok hconfig (by decide +kernel)

end Repaint
