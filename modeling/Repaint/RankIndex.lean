import Repaint.Frame

/-!
# The rank index

The index knows the rank of every window of the newest frame. Ranks are kept in a pool of nodes; a window
that leaves gives its node back and a window that arrives takes one over before the pool grows.

`RankIndex.relink` visits the entries in the order in which they are listed. What the index answers
afterwards does not depend on that order; which node a new window gets does.
-/

namespace Repaint

/-- The rank of each window of the newest frame, in pooled nodes. -/
structure RankIndex where
  /-- Each indexed key with the number of its node. -/
  entries : List (Key × Nat) := []
  /-- The rank held by each node. -/
  nodes : List Nat := []
  /-- The nodes free to be taken, the one taken next first. -/
  vacant : List Nat := []
deriving DecidableEq, Inhabited

namespace RankIndex

/-- The rank that is indexed for a key. -/
def get? (index : RankIndex) (key : Key) : Option Nat :=
  (index.entries.lookup key).bind (fun node => index.nodes[node]?)

/-- The rank held by a node. -/
def nodeRank (index : RankIndex) (node : Nat) : Except Fault Nat :=
  match index.nodes[node]? with
  | some rank => .ok rank
  | none => .error (.indexOutOfRange node index.nodes.length)

/-- Moves one entry on to the rank that its layer links to, or gives its node back if it links to none. -/
def moveOn (frame : Frame) (index : RankIndex) (entry : Key × Nat) : Except Fault RankIndex := do
  let rank ← index.nodeRank entry.2
  let layer ← frame.layer rank
  match layer.nextRank with
  | some next =>
    return { index with
      entries := index.entries ++ [entry]
      nodes := index.nodes.set entry.2 next }
  | none => return { index with vacant := entry.2 :: index.vacant }

/-- Moves every entry from its rank in `frame` to the rank that its layer there links to in the next frame.
Windows without such a link are dropped; the second result counts them. -/
def relink (index : RankIndex) (frame : Frame) : Except Fault (RankIndex × Nat) := do
  let moved ← index.entries.foldlM (moveOn frame) { index with entries := [] }
  return (moved, index.entries.length - moved.entries.length)

/-- Indexes a window that is not yet indexed. -/
def insert (index : RankIndex) (key : Key) (rank : Nat) : Except Fault RankIndex :=
  if (index.entries.lookup key).isSome then .error (.duplicateKey key)
  else
    match index.vacant with
    | node :: vacant =>
      .ok ⟨(key, node) :: index.entries, index.nodes.set node rank, vacant⟩
    | [] =>
      .ok ⟨(key, index.nodes.length) :: index.entries, index.nodes ++ [rank], []⟩

end RankIndex

end Repaint
