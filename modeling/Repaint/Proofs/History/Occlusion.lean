import Repaint.History.Occlusion
import Repaint.Proofs.Outcome
import Repaint.Proofs.Region.Cover
import Mathlib.Data.List.Nodup

/-!
# What an occlusion marking does

The walk from the topmost layer down keeps two things: the dirty points that no opaque layer met so far covers
(`covers_uncoveredBy`, the invariant of the walk), and the flags of the layers met so far (`painted`).

* `foldrM_visit` — the walk as a whole, refused only where a layer's window is not in the stack;
* `Marked` — all that a marking does to a history;
* `touches_uncoveredBy_iff` — the flag of a layer says whether a dirty point in its bounds is hidden by no
  opaque layer above.
-/

namespace Repaint

/-- The layer with another paint flag. -/
def Layer.setPaint (l : Layer) (flag : Bool) : Layer := { l with toPaint := flag }

@[simp] theorem Layer.setPaint_window (l : Layer) (flag : Bool) : (l.setPaint flag).window = l.window := rfl

@[simp] theorem Layer.setPaint_toPaint (l : Layer) (flag : Bool) : (l.setPaint flag).toPaint = flag := rfl

/-- The window with another paint flag. -/
def Window.setPaint (w : Window) (flag : Bool) : Window := { w with toPaint := some flag }

/-- What is left of a dirty area beneath the given layers. -/
def uncoveredBy (dirty : Region) (above : List Layer) : Region :=
  above.foldr (fun layer left => if layer.isOpaque then left.remove layer.bounds else left) dirty

/-- The layers with their paint flags. -/
def painted (dirty : Region) : List Layer → List Layer
  | [] => []
  | layer :: above =>
    layer.setPaint ((uncoveredBy dirty above).touches layer.bounds) :: painted dirty above

/-- The stack with the flags of the layers written to their windows, from the top down. -/
def flagWindows (layers : List Layer) (stack : List Window) : List Window :=
  layers.foldr (fun layer stack => stack.modify layer.window (fun w => w.setPaint layer.toPaint)) stack

variable {dirty : Region} {above : List Layer} {stack : List Window} {p : Point}

theorem uncoveredBy_cons (dirty : Region) (layer : Layer) (above : List Layer) :
    uncoveredBy dirty (layer :: above) = if layer.isOpaque then
      (uncoveredBy dirty above).remove layer.bounds else uncoveredBy dirty above := rfl

theorem painted_cons (dirty : Region) (layer : Layer) (above : List Layer) :
    painted dirty (layer :: above) =
      layer.setPaint ((uncoveredBy dirty above).touches layer.bounds) :: painted dirty above := rfl

theorem flagWindows_cons (layer : Layer) (layers : List Layer) (stack : List Window) :
    flagWindows (layer :: layers) stack =
      (flagWindows layers stack).modify layer.window (fun w => w.setPaint layer.toPaint) := rfl

@[simp] theorem length_flagWindows (layers : List Layer) :
    (flagWindows layers stack).length = stack.length := by
  induction layers with
  | nil => rfl
  | cons layer layers ih => rw [flagWindows_cons, List.length_modify, ih]

/-! ## The walk -/

/-- The walk goes through whenever every layer's window is in the stack. -/
theorem foldrM_visit (above : List Layer) (h : ∀ layer ∈ above, layer.window < stack.length) :
    above.foldrM Marking.visit { uncovered := dirty, stack } = .ok {
      uncovered := uncoveredBy dirty above
      layers := painted dirty above
      stack := flagWindows (painted dirty above) stack
      culled := (painted dirty above).countP (fun layer => !layer.toPaint)
      occluders := above.countP Layer.isOpaque } := by
  induction above with
  | nil => rfl
  | cons layer above ih =>
    -- the walk comes from above, so the layer at hand is the last one it meets
    obtain ⟨hfirst, hrest⟩ := List.forall_mem_cons.mp h
    rw [List.foldrM_cons, ih hrest, ok_bind, uncoveredBy_cons, painted_cons, flagWindows_cons,
      List.countP_cons, List.countP_cons]
    unfold Marking.visit
    simp only [length_flagWindows, if_pos hfirst]
    generalize (uncoveredBy dirty above).touches layer.bounds = flag
    by_cases hopaque : layer.isOpaque = true
    · simp only [if_pos hopaque]
      cases flag <;> rfl
    · simp only [if_neg hopaque]
      cases flag <;> rfl

/-- A walk that goes through has found every layer's window. -/
theorem window_lt_of_foldrM_visit {m : Marking}
    (hok : above.foldrM Marking.visit { uncovered := dirty, stack } = .ok m) :
    ∀ layer ∈ above, layer.window < stack.length := by
  induction above generalizing m with
  | nil => exact fun _ h => absurd h List.not_mem_nil
  | cons layer above ih =>
    rw [List.foldrM_cons, bind_eq_ok_iff] at hok
    obtain ⟨mid, hmid, hvisit⟩ := hok
    have hrest := ih hmid
    rw [foldrM_visit above hrest] at hmid
    cases hmid
    refine List.forall_mem_cons.mpr ⟨?_, hrest⟩
    by_contra hlt
    unfold Marking.visit at hvisit
    simp only [length_flagWindows, if_neg hlt] at hvisit
    cases hvisit

/-! ## The points that are left -/

theorem numeric_uncoveredBy (h : dirty.Numeric) (above : List Layer) :
    (uncoveredBy dirty above).Numeric := by
  induction above with
  | nil => exact h
  | cons layer above ih =>
    rw [uncoveredBy_cons]
    cases layer.isOpaque with
    | true => exact ih.remove
    | false => exact ih

/-- The walk takes no point that no opaque layer met so far covers, whatever the dirty edges. -/
theorem covers_uncoveredBy_of (hp : dirty.covers p)
    (hout : ∀ layer ∈ above, layer.isOpaque = true → ¬ layer.bounds.covers p) : (uncoveredBy dirty above).covers p := by
  induction above with
  | nil => exact hp
  | cons layer above ih =>
    obtain ⟨hfirst, hrest⟩ := List.forall_mem_cons.mp hout
    rw [uncoveredBy_cons]
    cases hopaque : layer.isOpaque with
    | true =>
      refine Region.covers_remove_of (ih hrest) ?_
      rw [Layer.bounds, Rect.normalize_ofOrigin]
      exact hfirst hopaque
    | false => exact ih hrest

/-- The invariant of the walk: what is left is what no opaque layer met so far covers. -/
theorem covers_uncoveredBy (h : dirty.Numeric) (above : List Layer) :
    (uncoveredBy dirty above).covers p ↔
      dirty.covers p ∧ ∀ layer ∈ above, layer.isOpaque = true → ¬ layer.bounds.covers p := by
  induction above with
  | nil => simp [uncoveredBy]
  | cons layer above ih =>
    rw [uncoveredBy_cons, List.forall_mem_cons]
    cases layer.isOpaque with
    | true =>
      rw [if_pos rfl, Region.covers_remove (numeric_uncoveredBy h above), ih, Layer.bounds,
        Rect.normalize_ofOrigin]
      tauto
    | false =>
      rw [if_neg Bool.false_ne_true, ih]
      simp

/-- A layer touches what is left iff some dirty point in its bounds is hidden by no layer above. -/
theorem touches_uncoveredBy_iff (h : dirty.Numeric) (layer : Layer) (above : List Layer) :
    (uncoveredBy dirty above).touches layer.bounds = true ↔
      ∃ p, dirty.covers p ∧ layer.bounds.covers p ∧
        ∀ other ∈ above, other.isOpaque = true → ¬ other.bounds.covers p := by
  rw [Region.touches_iff (numeric_uncoveredBy h above), Layer.bounds, Rect.normalize_ofOrigin]
  refine exists_congr fun p => ?_
  rw [covers_uncoveredBy h]
  tauto

/-! ## The flags -/

theorem getElem?_painted (dirty : Region) (layers : List Layer) (place : Nat) :
    (painted dirty layers)[place]? = layers[place]?.map (fun layer =>
      layer.setPaint ((uncoveredBy dirty (layers.drop (place + 1))).touches layer.bounds)) := by
  induction layers generalizing place with
  | nil => rfl
  | cons layer layers ih =>
    cases place with
    | zero => rfl
    | succ place => exact ih place

/-- A window that no layer refers to keeps its flag. -/
theorem getElem?_flagWindows_of_notMem {layers : List Layer} {place : Nat}
    (h : place ∉ layers.map Layer.window) : (flagWindows layers stack)[place]? = stack[place]? := by
  induction layers with
  | nil => rfl
  | cons layer layers ih =>
    rw [List.map_cons, List.mem_cons, not_or] at h
    rw [flagWindows_cons, List.getElem?_modify_ne _ _ (Ne.symm h.1)]
    exact ih h.2

/-- Where no two layers refer to one window, every window referred to gets its layer's flag. -/
theorem getElem?_flagWindows (stack : List Window) {layers : List Layer}
    (hwindows : (layers.map Layer.window).Nodup) {layer : Layer} (hlayer : layer ∈ layers) :
    (flagWindows layers stack)[layer.window]? =
      stack[layer.window]?.map (fun w => w.setPaint layer.toPaint) := by
  induction layers with
  | nil => cases hlayer
  | cons first layers ih =>
    rw [List.map_cons, List.nodup_cons] at hwindows
    rw [flagWindows_cons]
    rcases List.mem_cons.mp hlayer with rfl | hlayer
    · rw [List.getElem?_modify_eq]
      exact congrArg _ (getElem?_flagWindows_of_notMem hwindows.1)
    · have hne : first.window ≠ layer.window := by
        intro heq
        exact hwindows.1 (heq ▸ List.mem_map_of_mem hlayer)
      rw [List.getElem?_modify_ne _ _ hne]
      exact ih hwindows.2 hlayer

/-! ## The whole marking -/

/-- The frame with its layers' paint flags, the bottom one always set. -/
def Frame.marked (f : Frame) (dirty : Region) : Frame :=
  match f.layers with
  | [] => f
  | bottom :: above => { f with layers := bottom.setPaint true :: painted dirty above }

namespace History

variable {h h' : History}

/-- All that a marking does to a history. -/
structure Marked (h : History) (dirty : Region) (h' : History) : Prop where
  capacity : h'.capacity = h.capacity
  newest : h'.newest = h.newest.marked dirty
  older : ∀ age, 0 < age → age < h.capacity → h'.frames.get age = h.frames.get age
  index : h'.index = h.index
  uncovered : h'.uncovered = uncoveredBy dirty h.newest.layers.tail
  pushes : h'.pushes = h.pushes

/-- The counts of a marking. -/
def occlusionReport (h : History) (dirty : Region) : OcclusionReport :=
  let above := h.newest.layers.tail
  { frame := h.pushes
    visited := above.length
    culled := (painted dirty above).countP (fun layer => !layer.toPaint)
    occluders := above.countP Layer.isOpaque }

/-- A marking goes through whenever the windows of all layers but the bottom one are in the stack. -/
theorem occlude_ok (h : History) (dirty : Region)
    (hwindows : ∀ layer ∈ h.newest.layers.tail, layer.window < stack.length) :
    ∃ h', h.occlude stack dirty = .ok (h.occlusionReport dirty, h',
        flagWindows (painted dirty h.newest.layers.tail) stack) ∧ Marked h dirty h' := by
  cases hlayers : h.newest.layers with
  | nil =>
    refine ⟨{ h with uncovered := dirty }, ?_, rfl, ?_, fun _ _ _ => rfl, rfl, ?_, rfl⟩
    · simp only [occlude, hlayers, occlusionReport]
      rfl
    · show h.newest = _
      simp only [Frame.marked, hlayers]
    · rw [hlayers]
      rfl
  | cons bottom above =>
    rw [hlayers, List.tail_cons] at hwindows
    have hmarked : h.newest.marked dirty =
        { h.newest with layers := bottom.setPaint true :: painted dirty above } := by
      simp only [Frame.marked, hlayers]
    refine ⟨{ h with
      frames := h.frames.replaceNewest (h.newest.marked dirty)
      uncovered := uncoveredBy dirty above }, ?_, ?_⟩
    · simp only [occlude, hlayers, foldrM_visit above hwindows, ok_bind, pure_eq_ok, occlusionReport,
        List.tail_cons, hmarked]
      rfl
    · refine ⟨?_, ?_, ?_, rfl, ?_, rfl⟩
      · exact Ring.capacity_replaceNewest _ _
      · exact Ring.get_replaceNewest_zero _ _
      · exact fun age hpos hlt => Ring.get_replaceNewest _ _ hpos hlt
      · rw [hlayers]
        rfl

/-- A marking that was not refused has found the windows of all layers but the bottom one. -/
theorem window_lt_of_occlude {result : OcclusionReport × History × List Window}
    (hok : h.occlude stack dirty = .ok result) :
    ∀ layer ∈ h.newest.layers.tail, layer.window < stack.length := by
  unfold occlude at hok
  cases hlayers : h.newest.layers with
  | nil => exact fun _ h => absurd h List.not_mem_nil
  | cons bottom above =>
    simp only [hlayers, bind_eq_ok_iff] at hok
    obtain ⟨m, hwalk, _⟩ := hok
    exact window_lt_of_foldrM_visit hwalk

theorem marked_of_occlude {report : OcclusionReport} {stack' : List Window}
    (hok : h.occlude stack dirty = .ok (report, h', stack')) : Marked h dirty h' := by
  obtain ⟨h'', hok', hmarked⟩ := h.occlude_ok dirty (window_lt_of_occlude hok)
  rw [hok] at hok'
  cases hok'
  exact hmarked

end History

end Repaint
