import Repaint.History.Basic

/-!
# Pushing a frame

`History.push` makes a new frame from a window stack, in the storage of the oldest one. It walks the stack
from the bottom to the top, seats each managed window that is to be painted in the next slot, links the new
layers with the layers of the same windows in the last frame, and moves the rank index on.

A window that is refused leaves its slot to the next one. Pending damage is cleared on every managed window,
refused or not. Two windows that are both new may not share a key.
-/

namespace Repaint

/-- What a push did. -/
structure PushReport where
  frame : Nat := 0
  generation : UInt64 := 0
  /-- The managed windows of the stack. -/
  candidates : Nat := 0
  layers : Nat := 0
  /-- The layers whose window was not in the last frame. -/
  newLayers : Nat := 0
  /-- The windows of the last frame that are gone. -/
  removed : Nat := 0
  /-- The slots of the new frame. -/
  capacity : Nat := 0
deriving DecidableEq, Inhabited

/-- The managed windows of a stack, each with its place there, bottom first. -/
def candidatesOf (stack : List Window) : List (Window × Nat) :=
  (stack.zipIdx.filter (fun entry => entry.1.managed)).reverse

/-- Seats windows, given with their places in the stack, in slots from `rank` on. A window that is not
to be painted leaves the slot to the next one. The results are the layers and the slots left over. -/
def seat (screen : Size) (rank : Nat) :
    List (Window × Nat) → List Layer → Except Fault (List Layer × List Layer)
  | [], slots => .ok ([], slots)
  | _ :: _, [] => .error (.indexOutOfRange rank rank)
  | (window, place) :: windows, slot :: spare =>
    match slot.refresh window place screen with
    | (true, layer) => do
      let (layers, spare) ← seat screen (rank + 1) windows spare
      return (layer :: layers, spare)
    | (false, layer) => seat screen rank windows (layer :: spare)

/-- Links a layer that stands at `rank` in the new frame with the layer of the same window among `older`. -/
def linkLayer (index : RankIndex) (rank : Nat) (layer : Layer) (older : List Layer) :
    Except Fault (Layer × List Layer) :=
  match index.get? layer.key with
  | none => .ok (layer, older)
  | some prev =>
    if prev < older.length then
      .ok ({ layer with prevRank := some prev },
        older.modify prev (fun old => { old with nextRank := some rank }))
    else .error (.indexOutOfRange prev older.length)

/-- Links layers that stand at `rank` and above in the new frame, in order, with those among `older`. Of two
layers of one window the later one is the one that the older layer links to. -/
def linkLayers (index : RankIndex) (rank : Nat) :
    List Layer → List Layer → Except Fault (List Layer × List Layer)
  | [], older => .ok ([], older)
  | layer :: layers, older => do
    let (layer, older) ← linkLayer index rank layer older
    let (layers, older) ← linkLayers index (rank + 1) layers older
    return (layer :: layers, older)

/-- Indexes the layers, standing at `rank` and above, that have no layer in the last frame. -/
def enroll (rank : Nat) : List Layer → RankIndex → Except Fault RankIndex
  | [], index => .ok index
  | layer :: layers, index => do
    let index ← if layer.prevRank.isNone then index.insert layer.key rank else .ok index
    enroll (rank + 1) layers index

/-- The stack after a push: no managed window has pending damage. -/
def clearManaged (stack : List Window) : List Window :=
  stack.map (fun w => if w.managed then w.clearPending else w)

/-- Pushes the frame of a window stack, topmost window first. The last result is the stack afterwards. -/
def History.push (h : History) (stack : List Window) (generation : UInt64) (size : Size) :
    Except Fault (PushReport × History × List Window) := do
  let candidates := candidatesOf stack
  let slots := h.frames.oldest.slots candidates.length
  let (layers, spare) ← seat size 0 candidates slots
  let unlinked := h.newest.layers.map (fun layer => { layer with nextRank := none })
  let (layers, older) ← linkLayers h.index 0 layers unlinked
  let last := { h.newest with layers := older }
  let (index, removed) ← h.index.relink last
  let index ← enroll 0 layers index
  let frame : Frame := { size, generation, layers, spare }
  let report : PushReport := {
    frame := h.pushes + 1
    generation
    candidates := candidates.length
    layers := layers.length
    newLayers := layers.countP (fun layer => layer.prevRank.isNone)
    removed
    capacity := frame.capacity }
  let history : History := {
    frames := (h.frames.replaceNewest last).push frame
    index
    uncovered := h.uncovered
    pushes := h.pushes + 1 }
  return (report, history, clearManaged stack)

end Repaint
