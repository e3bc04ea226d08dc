import Repaint.Json
import Repaint.Trace.Reader

/-!
# Timelines

A timeline shows a recording in a trace viewer. A phase has an entry where it begins and one where it ends.
Every other record is an instant that carries its fields; it has no time of its own and stands at the time of
the last phase mark before it.
-/

namespace Repaint

/-- What an entry of a timeline is. -/
inductive EntryKind where
  | opening
  | closing
  /-- An outcome. -/
  | instant
deriving DecidableEq, Inhabited

/-- An entry of a timeline. -/
structure Entry where
  kind : EntryKind
  name : String
  /-- The group that the entry belongs to. -/
  category : String
  /-- The time in microseconds. -/
  time : Coord
  /-- The fields of what is shown. -/
  args : List (String × Json)

namespace Entry

/-- The letter for a kind of entry. -/
def kindLabel : EntryKind → String
  | .opening => "B"
  | .closing => "E"
  | .instant => "i"

/-- An entry as a JSON object. Instants belong to their thread. -/
def json (e : Entry) : Json :=
  let scope := if e.kind = .instant then [("s", Json.label "t")] else []
  Json.sorted ([("ph", .label (kindLabel e.kind)), ("name", .label e.name),
    ("cat", .label e.category), ("ts", .real e.time), ("pid", .count 0), ("tid", .count 0),
    ("args", Json.sorted e.args)] ++ scope)

end Entry

/-- The title of a phase. -/
def Phase.title : Phase → String
  | .append => "Append"
  | .occlusion => "Occlusion"
  | .damage => "Damage"

/-- A 64-bit word in JSON. -/
def Json.word64 (w : UInt64) : Json := .count w.toNat

/-- A 32-bit word in JSON. -/
def Json.word32 (w : UInt32) : Json := .count w.toNat

/-- The entry of a phase mark. -/
def PhaseMark.entry (m : PhaseMark) (kind : EntryKind) : Entry where
  kind
  name := m.phase.title
  category := "Frame"
  time := microseconds m.time
  args := [("frame_index", .word64 m.frame)]

/-- The entry of a record where the last phase mark was at `time`. -/
def Record.entry (time : Coord) : Record → Entry
  | .phaseBegin m => m.entry .opening
  | .phaseEnd m => m.entry .closing
  | .push e => ⟨.instant, "LayoutAppend", "Layout", time,
      [("frame_index", .word64 e.frame), ("generation", .word64 e.generation),
        ("candidates", .word32 e.candidates), ("layers", .word32 e.layers),
        ("new_layers", .word32 e.newLayers), ("removed", .word32 e.removed),
        ("capacity", .word32 e.capacity)]⟩
  | .occlusion e => ⟨.instant, "Occlusion", "Layout", time,
      [("frame_index", .word64 e.frame), ("visited", .word32 e.visited),
        ("culled", .word32 e.culled), ("opaque", .word32 e.occluders)]⟩
  | .damage e => ⟨.instant, "FrameDamage", "Damage", time,
      [("frame_index", .word64 e.frame), ("buffer_age", .word32 e.age), ("full", .flag e.full),
        ("rects", .word32 e.rects)]⟩
  | .summary s => ⟨.instant, "FrameSummary", "Summary", time,
      [("frame_index", .word64 s.frame), ("generation", .word64 s.generation),
        ("layers", .word32 s.layers), ("new_layers", .word32 s.newLayers),
        ("removed", .word32 s.removed), ("culled", .word32 s.culled),
        ("damage_full", .flag s.damageFull), ("damage_rects", .word32 s.damageRects),
        ("append_us", .real (microseconds s.appendTime)),
        ("occlusion_us", .real (microseconds s.occlusionTime)),
        ("damage_us", .real (microseconds s.damageTime))]⟩
  | .linkCount frame count => ⟨.instant, "LayerLinks", "Rich", time,
      [("frame_index", .word64 frame), ("count", .word32 count)]⟩
  | .rectCount frame count => ⟨.instant, "DamageRects", "Rich", time,
      [("frame_index", .word64 frame), ("count", .word32 count)]⟩

/-- The time of a record that is a phase mark. -/
def Record.time? : Record → Option Coord
  | .phaseBegin m => some (microseconds m.time)
  | .phaseEnd m => some (microseconds m.time)
  | _ => none

/-- The entries of records that follow a phase mark at `time`. -/
def timeline (time : Coord) : List Record → List Entry
  | [] => []
  | record :: records =>
    record.entry time :: timeline (record.time?.getD time) records

/-- The timeline of a recording, as JSON text. -/
def timelineText (bytes : List UInt8) : String :=
  (Json.list ((timeline 0 (decode bytes)).map Entry.json)).text 0

end Repaint
