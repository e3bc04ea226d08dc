import Repaint.Proofs.History.Culling

/-!
# What happens to the windows

A history keeps no window. Its newest layers remember places in the last stack pushed, and a client hands the stack in
again when it asks for a marking. What is written to the windows of a stack is this and nothing else:

* **places** — the newest layers refer to the windows that were managed and accepted, each to one of its own
  (`window_of_replay`);
* **too short a stack** — the walk of a marking goes from the top layer down, so through the places in ascending order,
  and ends at the first one that is missing (`occlude_cases`, `lowest_of_occlude_error`). The place of the bottom layer
  is never looked at (`occlude_refused_iff`);
* **effects** — a push takes the pending damage of the managed windows, and a marking writes one flag for each layer
  above the bottom one (`Frame.Tells`, `window_effects`).
-/

namespace Repaint

/-! ## Places -/

/-- The places of a stack whose windows become layers, from the bottom of the stack to its top. -/
def acceptedPlaces (stack : List Window) (screen : Size) : List Nat := (acceptedOf stack screen).map Prod.snd

/-- The layers above the bottom one are those of rank 1 and higher. -/
theorem Frame.mem_tail_iff {f : Frame} {layer : Layer} :
    layer ∈ f.layers.tail ↔ ∃ rank, 1 ≤ rank ∧ f.layer rank = .ok layer := by
  simp only [List.mem_iff_getElem?, List.getElem?_tail, Frame.layer_eq_ok_iff]
  constructor
  · rintro ⟨place, hlayer⟩
    exact ⟨place + 1, Nat.le_add_left 1 place, hlayer⟩
  · rintro ⟨rank, hrank, hlayer⟩
    exact ⟨rank - 1, by rwa [Nat.sub_add_cancel hrank]⟩

/-- The stack pushed last and the size of its screen, after the action. -/
def Action.pushedStack (before : List Window × Size) : Action → List Window × Size
  | push stack _ size => (stack, size)
  | mark _ _ => before

/-! ## What a frame tells -/

/-- What a frame tells the windows of a stack: those of the layers above the bottom one are told, once, whether they
are to be painted. -/
structure Frame.Tells (f : Frame) (stack stack' : List Window) : Prop where
  /-- One write for each layer above the bottom one. -/
  writes : stack' = flagWindows f.layers.tail stack
  once : (f.layers.tail.map Layer.window).Nodup
  /-- What is written is the layer's own flag. -/
  told : ∀ rank layer, 1 ≤ rank → f.layer rank = .ok layer → ∃ w, stack[layer.window]? = some w ∧
    stack'[layer.window]? = some (w.setPaint layer.toPaint)
  untold : ∀ place, place ∉ f.layers.tail.map Layer.window → stack'[place]? = stack[place]?
  bottom : ∀ layer, f.layer 0 = .ok layer → stack'[layer.window]? = stack[layer.window]?
  pending : stack'.map Window.pending = stack.map Window.pending

/-- Flags are all that is written to windows. -/
theorem map_flagWindows {α : Type} (g : Window → α) (hg : ∀ w flag, g (w.setPaint flag) = g w)
    (layers : List Layer) (stack : List Window) : (flagWindows layers stack).map g = stack.map g := by
  induction layers with
  | nil => rfl
  | cons layer layers ih =>
    rw [flagWindows_cons, ← ih]
    refine List.ext_getElem? fun place => ?_
    rw [List.getElem?_map, List.getElem?_map, List.getElem?_modify]
    cases (flagWindows layers stack)[place]? with
    | none => rfl
    | some w =>
      show some (g (if layer.window = place then w.setPaint layer.toPaint else w)) = some (g w)
      split
      · rw [hg]
      · rfl

/-- Where the layers refer to different windows, all in the stack, the flags that are written are told. -/
theorem Frame.tells_flagWindows {f : Frame} {stack : List Window}
    (hdown : (f.layers.map Layer.window).Pairwise (· > ·))
    (hwindows : ∀ layer ∈ f.layers, layer.window < stack.length) :
    f.Tells stack (flagWindows f.layers.tail stack) := by
  have hnodup : (f.layers.map Layer.window).Nodup := hdown.imp fun hgt => Nat.ne_of_gt hgt
  have honce := hnodup.sublist ((List.tail_sublist _).map Layer.window)
  refine ⟨rfl, honce, fun rank layer hrank hlayer => ?_,
    fun place hplace => getElem?_flagWindows_of_notMem hplace, fun layer hlayer => ?_,
    map_flagWindows Window.pending (fun _ _ => rfl) _ _⟩
  · have hmem : layer ∈ f.layers.tail := Frame.mem_tail_iff.mpr ⟨rank, hrank, hlayer⟩
    have hlt := hwindows layer (List.mem_of_mem_tail hmem)
    refine ⟨stack[layer.window], List.getElem?_eq_getElem hlt, ?_⟩
    rw [getElem?_flagWindows stack honce hmem, List.getElem?_eq_getElem hlt, Option.map_some]
  · -- the window of the bottom layer is that of no other layer
    refine getElem?_flagWindows_of_notMem ?_
    rw [Frame.layer_eq_ok_iff] at hlayer
    cases hlayers : f.layers with
    | nil => simp
    | cons first above =>
      rw [hlayers] at hlayer hnodup
      cases hlayer
      exact (List.nodup_cons.mp hnodup).1

/-! ## A run -/

/-- Two windows before a background, and among them one that is not managed and one that has had no content. -/
def mixedStack : List Window :=
  [{ sampleWindow 5 0 8 with managed := false, pending := sampleDirty }, sampleWindow 4 16 8,
    { sampleWindow 1 0 8 with everDamaged := false, pending := sampleDirty }, sampleWindow 2 4 8, sampleWindow 3 0 32]

/-- Windows come, trade places and go, and then there are some that become no layers. -/
def mixedRun : List Action := sampleRun ++ [.push mixedStack 7 ⟨Binary.ofInt 32, Binary.ofInt 8⟩]

theorem History.replay_mixedRun (config : Config) (hconfig : config.maxAge ≠ 0) :
    ∃ h, replay config mixedRun = .ok h := replay_ok hconfig (by decide +kernel)

namespace History

/-! ## The last stack pushed -/

/-- The stack that a run has pushed last and the size of its screen; no window before the first push. -/
def lastStack (actions : List Action) : List Window × Size := actions.foldl Action.pushedStack ([], Size.zero)

variable {h h' : History} {config : Config} {actions : List Action}
variable {stack stack' : List Window} {dirty : Region}

/-- The newest layers refer to the accepted windows of the last stack pushed, one after the other. -/
theorem window_of_replay (hrun : replay config actions = .ok h) :
    h.newest.layers.map Layer.window = acceptedPlaces (lastStack actions).1 (lastStack actions).2 := by
  apply replay_rel (R := fun h last => h.newest.layers.map Layer.window = acceptedPlaces last.1 last.2)
    (g := Action.pushedStack) (a := ([], Size.zero)) ?_ ?_ hrun
  · intro blank hstart
    rw [newest, frames_start hstart]
    rfl
  · intro action _ height mid last mid' hc hplaces hok
    cases action with
    | push stack generation size =>
      have hp := hc.pushed hok
      rw [hp.layers, linkedLayers, linkedBack, List.map_map]
      exact map_window_seated stack size
    | mark stack dirty =>
      have hm := marked_of_act hok
      rw [hm.newest, map_marked Layer.window fun _ _ => rfl]
      exact hplaces

/-! ## Too short a stack -/

/-- How a walk ends: at the bottom, or at the first layer from the top whose window is not in the stack. -/
theorem foldrM_visit_cases (above : List Layer) (stack : List Window) (dirty : Region) :
    ((∀ layer ∈ above, layer.window < stack.length) ∧
      ∃ m, above.foldrM Marking.visit { uncovered := dirty, stack } = .ok m) ∨
    ∃ lower layer higher, above = lower ++ layer :: higher ∧ (∀ other ∈ higher, other.window < stack.length) ∧
      stack.length ≤ layer.window ∧ above.foldrM Marking.visit { uncovered := dirty, stack } =
        .error (.indexOutOfRange layer.window stack.length) := by
  induction above with
  | nil => exact Or.inl ⟨fun _ h => absurd h List.not_mem_nil, _, rfl⟩
  | cons first above ih =>
    rcases ih with ⟨hrest, m, hm⟩ | ⟨lower, layer, higher, rfl, hhigher, hout, hfault⟩
    · rcases Nat.lt_or_ge first.window stack.length with hlt | hge
      · have hall : ∀ layer ∈ first :: above, layer.window < stack.length :=
          List.forall_mem_cons.mpr ⟨hlt, hrest⟩
        exact Or.inl ⟨hall, _, foldrM_visit _ hall⟩
      · -- all layers above have been visited, so the stack is as high as it was
        refine Or.inr ⟨[], first, above, rfl, hrest, hge, ?_⟩
        rw [List.foldrM_cons, foldrM_visit above hrest, ok_bind]
        unfold Marking.visit
        simp only [length_flagWindows, if_neg (Nat.not_lt_of_le hge)]
    · refine Or.inr ⟨first :: lower, layer, higher, rfl, hhigher, hout, ?_⟩
      rw [List.foldrM_cons, hfault, error_bind]

/-- How a marking ends. -/
theorem occlude_cases (h : History) (stack : List Window) (dirty : Region) :
    ((∀ layer ∈ h.newest.layers.tail, layer.window < stack.length) ∧
      ∃ result, h.occlude stack dirty = .ok result) ∨
    ∃ lower layer higher, h.newest.layers.tail = lower ++ layer :: higher ∧
      (∀ other ∈ higher, other.window < stack.length) ∧ stack.length ≤ layer.window ∧
      h.occlude stack dirty = .error (.indexOutOfRange layer.window stack.length) := by
  rcases foldrM_visit_cases h.newest.layers.tail stack dirty with
    ⟨hall, _⟩ | ⟨lower, layer, higher, htail, hhigher, hout, hfault⟩
  · obtain ⟨h', hok, _⟩ := h.occlude_ok dirty hall
    exact Or.inl ⟨hall, _, hok⟩
  · refine Or.inr ⟨lower, layer, higher, htail, hhigher, hout, ?_⟩
    unfold occlude
    cases hlayers : h.newest.layers with
    | nil => simp [hlayers] at htail
    | cons bottom above =>
      rw [hlayers, List.tail_cons] at hfault
      simp only [hfault, error_bind]

/-- The first layer at which a walk ends is the one with the lowest of the missing places. -/
theorem window_le_of_missing {lower higher : List Layer} {layer other : Layer}
    (hdown : ((lower ++ layer :: higher).map Layer.window).Pairwise (· > ·))
    (hhigher : ∀ other ∈ higher, other.window < stack.length) (hother : other ∈ lower ++ layer :: higher)
    (hout : stack.length ≤ other.window) : layer.window ≤ other.window := by
  rw [List.map_append, List.pairwise_append] at hdown
  rcases List.mem_append.mp hother with hlower | hrest
  · have hgt := hdown.2.2 other.window (List.mem_map_of_mem hlower) layer.window
      (List.mem_map_of_mem List.mem_cons_self)
    omega
  · rcases List.mem_cons.mp hrest with rfl | hmem
    · exact Nat.le_refl _
    · have := hhigher other hmem
      omega

/-- If any place is missing, that of the lowest layer is. -/
theorem exists_head_of_missing {lower higher : List Layer} {layer : Layer}
    (hdown : ((lower ++ layer :: higher).map Layer.window).Pairwise (· > ·))
    (hout : stack.length ≤ layer.window) :
    ∃ first, (lower ++ layer :: higher).head? = some first ∧ stack.length ≤ first.window := by
  cases lower with
  | nil => exact ⟨layer, rfl, hout⟩
  | cons first lower =>
    rw [List.cons_append, List.map_cons, List.pairwise_cons] at hdown
    have hgt := hdown.1 layer.window
      (List.mem_map_of_mem (List.mem_append_right _ List.mem_cons_self))
    exact ⟨first, rfl, by omega⟩

/-- Where the places decrease, a marking is refused iff the lowest layer that is looked at has no window. -/
theorem occlude_error_iff (hdown : (h.newest.layers.tail.map Layer.window).Pairwise (· > ·)) :
    (∃ fault, h.occlude stack dirty = .error fault) ↔
      2 ≤ h.newest.layers.length ∧ ∃ layer, h.newest.layer 1 = .ok layer ∧ stack.length ≤ layer.window := by
  rcases h.occlude_cases stack dirty with ⟨hall, result, hok⟩ | ⟨lower, layer, higher, htail, _, hout, hfault⟩
  · rw [hok]
    refine iff_of_false (by simp) ?_
    rintro ⟨_, first, hfirst, hmissing⟩
    have := hall first (Frame.mem_tail_iff.mpr ⟨1, Nat.le_refl 1, hfirst⟩)
    omega
  · rw [htail] at hdown
    obtain ⟨first, hfirst, hmissing⟩ := exists_head_of_missing hdown hout
    rw [← htail, List.head?_eq_getElem?, List.getElem?_tail] at hfirst
    have hlength := (List.getElem?_eq_some_iff.mp hfirst).1
    exact iff_of_true ⟨_, hfault⟩ ⟨hlength, first, Frame.layer_eq_ok_iff.mpr hfirst, hmissing⟩

/-- Where the places decrease, the fault of a marking names the lowest of those that are missing. -/
theorem lowest_of_occlude_error (hdown : (h.newest.layers.tail.map Layer.window).Pairwise (· > ·)) {fault : Fault}
    (hfault : h.occlude stack dirty = .error fault) :
    ∃ rank layer, 1 ≤ rank ∧ h.newest.layer rank = .ok layer ∧ stack.length ≤ layer.window ∧
      fault = .indexOutOfRange layer.window stack.length ∧
      ∀ other otherLayer, 1 ≤ other → h.newest.layer other = .ok otherLayer →
        stack.length ≤ otherLayer.window → layer.window ≤ otherLayer.window := by
  rcases h.occlude_cases stack dirty with ⟨_, result, hok⟩ | ⟨lower, layer, higher, htail, hhigher, hout, hfault'⟩
  · rw [hok] at hfault
    cases hfault
  · rw [hfault'] at hfault
    cases hfault
    rw [htail] at hdown
    have hlayer : layer ∈ h.newest.layers.tail := htail ▸ List.mem_append_right _ List.mem_cons_self
    obtain ⟨rank, hrank, hget⟩ := Frame.mem_tail_iff.mp hlayer
    refine ⟨rank, layer, hrank, hget, hout, rfl, fun other otherLayer hother hgetOther hmissing => ?_⟩
    have hmem : otherLayer ∈ h.newest.layers.tail := Frame.mem_tail_iff.mpr ⟨other, hother, hgetOther⟩
    exact window_le_of_missing hdown hhigher (htail ▸ hmem) hmissing

/-- **A marking is refused for too short a stack alone.** After every run the layers of the newest frame refer to
places that decrease from the bottom layer up, all of them in a stack as high as the last one pushed. So a marking is
refused iff the stack that is handed in lacks the place of the layer at rank 1, whatever is dirty, and never for a stack
of that height. The fault names the lowest of the missing places that layers above the bottom one refer to. -/
theorem occlude_refused_iff (hrun : replay config actions = .ok h) :
    ∃ newest, h.frame 0 = .ok newest ∧
      (newest.layers.map Layer.window).Pairwise (· > ·) ∧
      (∀ layer ∈ newest.layers, layer.window < lastHeight actions) ∧
      (∀ stack dirty, (∃ fault, h.occlude stack dirty = .error fault) ↔
        2 ≤ newest.layers.length ∧ ∃ layer, newest.layer 1 = .ok layer ∧ stack.length ≤ layer.window) ∧
      (∀ stack dirty fault, h.occlude stack dirty = .error fault →
        ∃ rank layer, 1 ≤ rank ∧ newest.layer rank = .ok layer ∧ stack.length ≤ layer.window ∧
          fault = .indexOutOfRange layer.window stack.length ∧
          ∀ other otherLayer, 1 ≤ other → newest.layer other = .ok otherLayer →
            stack.length ≤ otherLayer.window → layer.window ≤ otherLayer.window) ∧
      ∀ stack dirty, lastHeight actions ≤ stack.length → ∃ result, h.occlude stack dirty = .ok result := by
  obtain ⟨hc, _⟩ := consistent_of_replay hrun
  have hdown := hc.windows.sublist ((List.tail_sublist _).map Layer.window)
  refine ⟨h.newest, h.frame_zero, hc.windows, hc.inStack, ?_, ?_, ?_⟩
  · intro stack dirty
    exact occlude_error_iff hdown
  · intro stack dirty fault hfault
    exact lowest_of_occlude_error hdown hfault
  · intro stack dirty hheight
    obtain ⟨h', hok, _⟩ := hc.occlude_ok hheight dirty
    exact ⟨_, hok⟩

/-- Three windows are layers, at the places 4, 3 and 1. Three windows of the stack are too few for the two lowest
layers, and that of the bottom one is not missed. -/
theorem occlude_refused_mixedRun :
    ∃ h newest, replay {} mixedRun = .ok h ∧ h.frame 0 = .ok newest ∧ newest.layers.map Layer.window = [4, 3, 1] ∧
      h.occlude (mixedStack.take 3) sampleDirty = .error (.indexOutOfRange 3 3) ∧
      ∃ result, h.occlude mixedStack sampleDirty = .ok result := by
  obtain ⟨h, hrun⟩ := replay_mixedRun {} (by decide)
  obtain ⟨newest, hnewest, _, _, hrefused, hfault, hok⟩ := occlude_refused_iff hrun
  have hplaces : newest.layers.map Layer.window = [4, 3, 1] := by
    obtain rfl : h.newest = newest := Except.ok.inj (h.frame_zero.symm.trans hnewest)
    rw [window_of_replay hrun]
    decide +kernel
  have hlength : newest.layers.length = 3 := by simpa using congrArg List.length hplaces
  have hfirst : newest.layer 1 = .ok newest.layers[1] :=
    Frame.layer_eq_ok_iff.mpr (List.getElem?_eq_getElem (by omega))
  have hwindow : newest.layers[1].window = 3 := by
    have := congrArg (·[1]?) hplaces
    simpa [hlength] using this
  have hthree : (mixedStack.take 3).length = 3 := rfl
  obtain ⟨fault, hresult⟩ := (hrefused (mixedStack.take 3) sampleDirty).mpr
    ⟨by omega, newest.layers[1], hfirst, by omega⟩
  obtain ⟨_, layer, _, _, hmissing, rfl, hlowest⟩ := hfault _ _ _ hresult
  have hleast := hlowest 1 newest.layers[1] (Nat.le_refl 1) hfirst (by omega)
  obtain heq : layer.window = 3 := by omega
  rw [heq, hthree] at hresult
  exact ⟨h, newest, hrun, hnewest, hplaces, hresult, hok mixedStack sampleDirty (by decide)⟩

/-! ## Effects -/

/-- A marking writes what its frame tells. -/
theorem Marked.tells {height : Nat} (hm : Marked h dirty h') (hc : h.Consistent height)
    (hheight : height ≤ stack.length) :
    h'.newest.Tells stack (flagWindows (painted dirty h.newest.layers.tail) stack) := by
  have hplaces : h'.newest.layers.map Layer.window = h.newest.layers.map Layer.window := by
    rw [hm.newest, map_marked Layer.window fun _ _ => rfl]
  rw [← hm.tail_newest]
  refine Frame.tells_flagWindows ?_ fun layer hlayer => ?_
  · rw [hplaces]
    exact hc.windows
  · have hmem : layer.window ∈ h.newest.layers.map Layer.window := hplaces ▸ List.mem_map_of_mem hlayer
    obtain ⟨old, hold, heq⟩ := List.mem_map.mp hmem
    exact heq ▸ hc.window_lt hheight old hold

end History

end Repaint
