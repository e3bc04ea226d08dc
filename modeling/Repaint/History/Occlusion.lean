import Repaint.History.Basic

/-!
# Occlusion

`History.occlude` walks the newest frame from its topmost layer down to rank 1 and keeps the part of a
dirty area that no opaque layer has hidden yet. A layer whose bounds miss that part need not be painted. The
bottom layer is never looked at and is always painted.
-/

namespace Repaint

/-- What an occlusion marking found. -/
structure OcclusionReport where
  frame : Nat := 0
  /-- The layers looked at: all but the bottom one. -/
  visited : Nat := 0
  /-- Those of them that need not be painted. -/
  culled : Nat := 0
  /-- Those of them that hide what is beneath. -/
  occluders : Nat := 0
deriving DecidableEq, Inhabited

/-- An occlusion marking under way. -/
structure Marking where
  /-- The dirty area not hidden so far. -/
  uncovered : Region
  /-- The layers already looked at, bottom to top. -/
  layers : List Layer := []
  /-- The window stack with the flags written so far. -/
  stack : List Window
  culled : Nat := 0
  occluders : Nat := 0
deriving DecidableEq

namespace Marking

/-- Marks the next layer further down and its window, and takes its bounds away if it is opaque. -/
def visit (layer : Layer) (m : Marking) : Except Fault Marking :=
  let bounds := layer.bounds
  let toPaint := m.uncovered.touches bounds
  if layer.window < m.stack.length then
    .ok {
      uncovered := if layer.isOpaque then m.uncovered.remove bounds else m.uncovered
      layers := { layer with toPaint } :: m.layers
      stack := m.stack.modify layer.window (fun w => { w with toPaint := some toPaint })
      culled := if toPaint then m.culled else m.culled + 1
      occluders := if layer.isOpaque then m.occluders + 1 else m.occluders }
  else .error (.indexOutOfRange layer.window m.stack.length)

end Marking

/-- Decides for each layer of the newest frame whether it has to be painted when `dirty` is, and tells the
windows of the stack that the frame was made from. -/
def History.occlude (h : History) (stack : List Window) (dirty : Region) :
    Except Fault (OcclusionReport × History × List Window) :=
  match h.newest.layers with
  | [] => .ok ({ frame := h.pushes }, { h with uncovered := dirty }, stack)
  | bottom :: above => do
    let m ← above.foldrM Marking.visit { uncovered := dirty, stack }
    let layers := { bottom with toPaint := true } :: m.layers
    let history := { h with
      frames := h.frames.replaceNewest { h.newest with layers }
      uncovered := m.uncovered }
    return (⟨h.pushes, above.length, m.culled, m.occluders⟩, history, m.stack)

end Repaint
