import Repaint.Proofs.History.Run

/-!
# Occlusion marking is exact

After every run, and with any dirty area, a marking paints the layers that have to be painted and no others:

* **flags** — a layer above the bottom one is painted iff some dirty point in its bounds lies under no opaque
  layer further up, and its window is told the same;
* **rest** — what is left over is the dirty area that no opaque layer above the bottom one hides;
* **counts** — the report counts the layers that were looked at, culled and found opaque.

The rectangles that the dirty area is cut into do not matter (`painted_congr`): each flag answers a question
about points.
-/

namespace Repaint

/-- An opaque layer of a higher rank covers the point. -/
def Frame.hides (f : Frame) (rank : Nat) (p : Point) : Prop :=
  ∃ above layer, rank < above ∧ f.layers[above]? = some layer ∧ layer.isOpaque = true ∧ layer.bounds.covers p

theorem Frame.not_hides_iff {f : Frame} {rank : Nat} {p : Point} : ¬ f.hides rank p ↔
    ∀ layer ∈ f.layers.drop (rank + 1), layer.isOpaque = true → ¬ layer.bounds.covers p := by
  constructor
  · intro h layer hlayer hopaque hcovers
    obtain ⟨place, hplace⟩ := List.mem_iff_getElem?.mp hlayer
    rw [List.getElem?_drop] at hplace
    exact h ⟨rank + 1 + place, layer, by omega, hplace, hopaque, hcovers⟩
  · rintro h ⟨above, layer, hlt, hlayer, hopaque, hcovers⟩
    refine h layer (List.mem_iff_getElem?.mpr ⟨above - (rank + 1), ?_⟩) hopaque hcovers
    rw [List.getElem?_drop, show rank + 1 + (above - (rank + 1)) = above by omega]
    exact hlayer

/-- The flags depend on the dirty points alone. -/
theorem painted_congr {dirty dirty' : Region} (h : dirty.Numeric) (h' : dirty'.Numeric)
    (hpoints : ∀ p, dirty'.covers p ↔ dirty.covers p) (layers : List Layer) :
    painted dirty' layers = painted dirty layers := by
  induction layers with
  | nil => rfl
  | cons layer above ih =>
    have htouches : (uncoveredBy dirty' above).touches layer.bounds =
        (uncoveredBy dirty above).touches layer.bounds := by
      rw [Bool.eq_iff_iff, touches_uncoveredBy_iff h', touches_uncoveredBy_iff h]
      exact exists_congr fun p => and_congr_left fun _ => hpoints p
    rw [painted_cons, painted_cons, ih, htouches]

namespace History

/-- A marking has found out what it should. -/
structure Culled (h : History) (stack : List Window) (dirty : Region) (report : OcclusionReport)
    (h' : History) (stack' : List Window) : Prop where
  /-- The bottom layer is painted. -/
  bottom : ∀ layer, h.newest.layers[0]? = some layer → h'.newest.layers[0]? = some (layer.setPaint true)
  /-- Any other layer is painted iff a dirty point in its bounds is hidden by nothing above, and its window
  gets the same flag. -/
  above : ∀ rank layer, 1 ≤ rank → h.newest.layers[rank]? = some layer → ∃ flag window,
    (flag = true ↔ ∃ p, dirty.covers p ∧ layer.bounds.covers p ∧ ¬ h.newest.hides rank p) ∧
    h'.newest.layers[rank]? = some (layer.setPaint flag) ∧
    stack[layer.window]? = some window ∧ stack'[layer.window]? = some (window.setPaint flag)
  length : h'.newest.layers.length = h.newest.layers.length
  /-- What is left over is the dirty area that no opaque layer above the bottom one covers. -/
  uncovered : ∀ p, h'.uncovered.covers p ↔ dirty.covers p ∧ ¬ h.newest.hides 0 p
  visited : report.visited = max h.newest.layers.length 1 - 1
  culled : report.culled = h'.newest.layers.tail.countP (fun layer => !layer.toPaint)
  occluders : report.occluders = h.newest.layers.tail.countP Layer.isOpaque

variable {h h' : History} {stack : List Window} {dirty : Region} {height : Nat}

/-- The layers refer to different windows, so that no flag is written over. -/
theorem Consistent.nodup_window (hc : h.Consistent height) :
    (h.newest.layers.tail.map Layer.window).Nodup := by
  have hdown : (h.newest.layers.tail.map Layer.window).Pairwise (· > ·) :=
    hc.windows.sublist ((List.tail_sublist _).map _)
  exact hdown.imp fun hgt => Nat.ne_of_gt hgt

theorem Marked.getElem?_zero (hm : Marked h dirty h') :
    h'.newest.layers[0]? = h.newest.layers[0]?.map (fun layer => layer.setPaint true) := by
  rw [hm.newest, Frame.marked]
  cases hlayers : h.newest.layers with
  | nil => rw [hlayers]; rfl
  | cons bottom above => rfl

theorem Marked.getElem?_succ (hm : Marked h dirty h') (place : Nat) :
    h'.newest.layers[place + 1]? = (painted dirty h.newest.layers.tail)[place]? := by
  rw [hm.newest, Frame.marked]
  cases hlayers : h.newest.layers with
  | nil => simp [hlayers, painted]
  | cons bottom above => rfl

theorem Marked.tail_newest (hm : Marked h dirty h') :
    h'.newest.layers.tail = painted dirty h.newest.layers.tail :=
  List.ext_getElem? fun place => by rw [List.getElem?_tail, hm.getElem?_succ]

/-- The flag of a layer above the bottom one, on the layer and on its window. -/
theorem Marked.above (hm : Marked h dirty h') (hc : h.Consistent height) (hheight : height ≤ stack.length)
    (hdirty : dirty.Numeric) {place : Nat} {layer : Layer} (hlayer : h.newest.layers[place + 1]? = some layer) :
    ∃ flag window,
      (flag = true ↔ ∃ p, dirty.covers p ∧ layer.bounds.covers p ∧ ¬ h.newest.hides (place + 1) p) ∧
      h'.newest.layers[place + 1]? = some (layer.setPaint flag) ∧ stack[layer.window]? = some window ∧
      (flagWindows (painted dirty h.newest.layers.tail) stack)[layer.window]? =
        some (window.setPaint flag) := by
  have htail : h.newest.layers.tail[place]? = some layer := by
    rw [List.getElem?_tail]
    exact hlayer
  have hlt : layer.window < stack.length := hc.window_lt hheight layer (List.mem_of_getElem? hlayer)
  -- the flag is decided by the layers behind the place, which are those of higher ranks
  have hpainted := getElem?_painted dirty h.newest.layers.tail place
  rw [htail, Option.map_some] at hpainted
  have hwindows : ((painted dirty h.newest.layers.tail).map Layer.window).Nodup := by
    rw [map_painted Layer.window fun _ _ => rfl]
    exact hc.nodup_window
  have hflag := getElem?_flagWindows stack hwindows (List.mem_of_getElem? hpainted)
  rw [Layer.setPaint_window, Layer.setPaint_toPaint, List.getElem?_eq_getElem hlt, Option.map_some] at hflag
  refine ⟨_, stack[layer.window], ?_, (hm.getElem?_succ place).trans hpainted,
    List.getElem?_eq_getElem hlt, hflag⟩
  rw [touches_uncoveredBy_iff hdirty, List.drop_tail]
  simp only [Frame.not_hides_iff]

/-- A marking of a consistent history with numbers for dirty edges finds out what it should. -/
theorem Marked.culled (hm : Marked h dirty h') (hc : h.Consistent height) (hheight : height ≤ stack.length)
    (hdirty : dirty.Numeric) :
    Culled h stack dirty (h.occlusionReport dirty) h'
      (flagWindows (painted dirty h.newest.layers.tail) stack) := by
  refine ⟨fun layer hlayer => ?_, fun rank layer hrank hlayer => ?_, ?_, fun p => ?_, ?_, ?_, rfl⟩
  · rw [hm.getElem?_zero, hlayer]
    rfl
  · obtain ⟨place, rfl⟩ : ∃ place, rank = place + 1 := ⟨rank - 1, by omega⟩
    exact hm.above hc hheight hdirty hlayer
  · rw [hm.newest, length_marked]
  · rw [hm.uncovered, covers_uncoveredBy hdirty, Frame.not_hides_iff, Nat.zero_add, List.drop_one]
  · show h.newest.layers.tail.length = max h.newest.layers.length 1 - 1
    rw [List.length_tail]
    omega
  · rw [hm.tail_newest]
    rfl

variable {config : Config} {actions : List Action}

/-- **Occlusion marking is exact.** After every run, a marking of a stack as high as the last one pushed goes
through and finds out what it should. Another dirty area that covers the same points has the same outcome. -/
theorem occlude_exact (hrun : replay config actions = .ok h) (hheight : lastHeight actions ≤ stack.length)
    (hdirty : dirty.Numeric) :
    ∃ report h' stack', h.occlude stack dirty = .ok (report, h', stack') ∧
      Culled h stack dirty report h' stack' ∧
      ∀ dirty' : Region, dirty'.Numeric → (∀ p, dirty'.covers p ↔ dirty.covers p) →
        ∃ h'', h.occlude stack dirty' = .ok (report, h'', stack') ∧ h''.newest = h'.newest ∧
          ∀ p, h''.uncovered.covers p ↔ h'.uncovered.covers p := by
  obtain ⟨hc, _⟩ := consistent_of_replay hrun
  have hwindows : ∀ layer ∈ h.newest.layers.tail, layer.window < stack.length :=
    fun layer hlayer => hc.window_lt hheight layer (List.mem_of_mem_tail hlayer)
  obtain ⟨h', hok, hm⟩ := h.occlude_ok dirty hwindows
  refine ⟨_, h', _, hok, hm.culled hc hheight hdirty, fun dirty' hdirty' hpoints => ?_⟩
  obtain ⟨h'', hok', hm'⟩ := h.occlude_ok dirty' hwindows
  have hpainted := painted_congr hdirty hdirty' hpoints
  refine ⟨h'', ?_, ?_, fun p => ?_⟩
  · rw [hok', occlusionReport, occlusionReport, hpainted]
  · rw [hm'.newest, hm.newest, Frame.marked, Frame.marked]
    simp only [hpainted]
  · rw [hm'.uncovered, hm.uncovered, covers_uncoveredBy hdirty', covers_uncoveredBy hdirty, hpoints]

theorem occlude_exact_sampleRun :
    ∃ h report h' stack', replay {} sampleRun = .ok h ∧
      h.occlude sampleStack sampleDirty = .ok (report, h', stack') ∧
      Culled h sampleStack sampleDirty report h' stack' := by
  obtain ⟨h, hrun⟩ := replay_sampleRun {} (by decide)
  have hdirty : sampleDirty.Solid := Region.solid_ofRect _
  obtain ⟨report, h', stack', hok, hculled, _⟩ :=
    occlude_exact hrun (show lastHeight sampleRun ≤ sampleStack.length by decide) hdirty.numeric
  exact ⟨h, report, h', stack', hrun, hok, hculled⟩

end History

end Repaint
