import Repaint.Trace.Record

/-!
# Reading recordings

`Reader.next` reads one record. Where the tag is unknown or bytes are missing it yields nothing and stands
behind what it had read until then, and the next call goes on from there. `decode` reads up to the first such
place.
-/

namespace Repaint

/-- A place in a recording. -/
structure Reader where
  /-- The number of bytes read. -/
  position : Nat
  /-- The bytes not yet read. -/
  rest : List UInt8
deriving DecidableEq, Inhabited

/-- An action that reads something, or nothing, and moves on. -/
def Read (α : Type) : Type := Reader → Option α × Reader

namespace Read

instance : Monad Read where
  pure a := fun r => (some a, r)
  bind read next := fun r =>
    match read r with
    | (some a, r) => next a r
    | (none, r) => (none, r)

/-- Reads nothing. -/
def fail {α : Type} : Read α := fun r => (none, r)

/-- Reads the next `count` bytes, or none of them if there are fewer. -/
def bytes (count : Nat) : Read (List UInt8) := fun r =>
  let taken := r.rest.take count
  if taken.length = count then (some taken, ⟨r.position + count, r.rest.drop count⟩) else (none, r)

/-- The number with the given bytes, lowest first. -/
def natOfBytes : List UInt8 → Nat
  | [] => 0
  | b :: bytes => b.toNat + 256 * natOfBytes bytes

/-- Reads a number of `count` bytes. -/
def nat (count : Nat) : Read Nat := do
  let taken ← bytes count
  return natOfBytes taken

/-- Reads a byte. -/
def byte : Read Nat := nat 1

/-- Reads a 32-bit word. -/
def word32 : Read UInt32 := do
  let n ← nat 4
  return .ofNat n

/-- Reads a 64-bit word. -/
def word64 : Read UInt64 := do
  let n ← nat 8
  return .ofNat n

/-- Reads a flag; every byte but zero sets it. -/
def flag : Read Bool := do
  let b ← byte
  return b ≠ 0

/-- Reads a phase; bytes beyond the phases stand for the last one. -/
def phase : Read Phase := do
  match ← byte with
  | 0 => return .append
  | 1 => return .occlusion
  | _ => return .damage

/-- Reads a phase mark. -/
def phaseMark : Read PhaseMark := do
  let frame ← word64
  let phase ← phase
  let time ← word64
  return { frame, phase, time }

/-- Reads the fields of a push. -/
def pushEvent : Read PushEvent := do
  let frame ← word64
  let generation ← word64
  let candidates ← word32
  let layers ← word32
  let newLayers ← word32
  let removed ← word32
  let capacity ← word32
  return { frame, generation, candidates, layers, newLayers, removed, capacity }

/-- Reads the fields of an occlusion marking. -/
def occlusionEvent : Read OcclusionEvent := do
  let frame ← word64
  let visited ← word32
  let culled ← word32
  let occluders ← word32
  return { frame, visited, culled, occluders }

/-- Reads the fields of a damage query. -/
def damageEvent : Read DamageEvent := do
  let frame ← word64
  let age ← word32
  let full ← flag
  let rects ← word32
  return { frame, age, full, rects }

/-- Reads the fields of a summary. -/
def summaryFields : Read Summary := do
  let frame ← word64
  let generation ← word64
  let layers ← word32
  let newLayers ← word32
  let removed ← word32
  let culled ← word32
  let damageFull ← flag
  let damageRects ← word32
  let appendTime ← word64
  let occlusionTime ← word64
  let damageTime ← word64
  return {
    frame, generation, layers, newLayers, removed, culled, damageFull, damageRects, appendTime,
    occlusionTime, damageTime }

/-- Reads a record: its tag, then the fields that the tag announces. -/
def record : Read Record := do
  match ← byte with
  | 1 => return .push (← pushEvent)
  | 2 => return .occlusion (← occlusionEvent)
  | 3 => return .damage (← damageEvent)
  | 4 => return .phaseBegin (← phaseMark)
  | 5 => return .phaseEnd (← phaseMark)
  | 6 => return .summary (← summaryFields)
  | 7 => return .linkCount (← word64) (← word32)
  | 8 => return .rectCount (← word64) (← word32)
  | _ => fail

end Read

namespace Reader

/-- A reader at the beginning of a recording. -/
def start (bytes : List UInt8) : Reader := ⟨0, bytes⟩

/-- The next record, if there is one here, and the place behind what was read. -/
def next (r : Reader) : Option Record × Reader := Read.record r

/-- The results of reading `count` times in a row. -/
def poll : Nat → Reader → List (Option Record)
  | 0, _ => []
  | count + 1, r => r.next.1 :: poll count r.next.2

/-- The records up to the first place where there is none, at most `count`. -/
def records : Nat → Reader → List Record
  | 0, _ => []
  | count + 1, r =>
    match r.next with
    | (some record, r) => record :: records count r
    | (none, _) => []

end Reader

/-- The records of a recording, up to the first place where there is none. A record has at least one byte. -/
def decode (bytes : List UInt8) : List Record := (Reader.start bytes).records bytes.length

end Repaint
