import Repaint.Trace.Sink
import Repaint.Proofs.Trace.Read
import Mathlib.Data.List.Forall2

/-!
# Recordings are read back

Reading a recording gives the events that were recorded, in order and with all their fields; of links and rectangles it
gives their number, as far as a word can count (`Event.Recorded`). What stands behind the recording is then read as if
nothing stood before it (`decode_emitAll`), so recordings may be put one after the other.

`decode` reads on until there is no record (`decode_of_some`, `decode_of_none`): a recording has at least as many bytes
as records, so the bound on their number is never met.
-/

namespace Repaint

/-! ## Decoding -/

/-- The place of the reader does not matter, and more records than there are bytes cannot come. -/
theorem Reader.records_congr {rest : List UInt8} {count count' : Nat} (h : rest.length ≤ count)
    (h' : rest.length ≤ count') (position position' : Nat) :
    Reader.records count ⟨position, rest⟩ = Reader.records count' ⟨position', rest⟩ := by
  induction count generalizing rest count' position position' with
  | zero =>
    obtain rfl : rest = [] := List.length_eq_zero_iff.mp (Nat.le_zero.mp h)
    cases count' with
    | zero => rfl
    | succ count' => rfl
  | succ count ih =>
    cases count' with
    | zero =>
      obtain rfl : rest = [] := List.length_eq_zero_iff.mp (Nat.le_zero.mp h')
      rfl
    | succ count' =>
      by_cases hrest : rest = []
      · subst hrest
        rfl
      · obtain ⟨result, taken, hle, hpos, hnext⟩ := Reader.next_forward hrest
        simp only [Reader.records, hnext]
        cases result with
        | none => rfl
        | some record =>
          -- both readers have moved on alike, and fewer bytes are left
          have hleft : (rest.drop taken).length < rest.length := by
            rw [List.length_drop]
            omega
          exact congrArg (record :: ·) (ih (by omega) (by omega) _ _)

theorem decode_of_some {bytes : List UInt8} {record : Record} {r : Reader}
    (h : (Reader.start bytes).next = (some record, r)) : decode bytes = record :: decode r.rest := by
  have hbytes : bytes ≠ [] := by
    rintro rfl
    cases h
  obtain ⟨result, taken, hle, hpos, hnext⟩ := Reader.next_forward hbytes
  have hr : r = ⟨0 + taken, bytes.drop taken⟩ := (Prod.mk.inj (h.symm.trans (hnext 0))).2
  obtain ⟨count, hcount⟩ : ∃ count, bytes.length = count + 1 := ⟨bytes.length - 1, by omega⟩
  unfold decode
  rw [hcount]
  simp only [Reader.records, h]
  subst hr
  exact congrArg (record :: ·) (Reader.records_congr (by rw [List.length_drop]; omega) (Nat.le_refl _) _ _)

theorem decode_of_none {bytes : List UInt8} (h : (Reader.start bytes).next.1 = none) : decode bytes = [] := by
  have hnext : (Reader.start bytes).next = (none, (Reader.start bytes).next.2) := Prod.ext h rfl
  unfold decode
  cases bytes.length with
  | zero => rfl
  | succ count =>
    rw [Reader.records, hnext]

/-- A record in front is read, and the rest as if it stood alone. -/
theorem decode_bytes_append (record : Record) (rest : List UInt8) :
    decode (record.bytes ++ rest) = record :: decode rest :=
  decode_of_some (Read.takes_record record 0 rest)

theorem decode_flatMap_append (records : List Record) (rest : List UInt8) :
    decode (records.flatMap Record.bytes ++ rest) = records ++ decode rest := by
  induction records with
  | nil => rfl
  | cons record records ih =>
    rw [List.flatMap_cons, List.append_assoc, decode_bytes_append, ih, List.cons_append]

theorem decode_flatMap (records : List Record) : decode (records.flatMap Record.bytes) = records := by
  have hend : decode [] = [] := rfl
  have hdecode := decode_flatMap_append records []
  rwa [List.append_nil, hend, List.append_nil] at hdecode

/-! ## Recording -/

theorem recording_eq_flatMap (events : List Event) :
    recording events = (events.map Event.record).flatMap Record.bytes := by
  rw [recording, List.flatMap_map]

theorem decode_recording (events : List Event) : decode (recording events) = events.map Event.record := by
  rw [recording_eq_flatMap, decode_flatMap]

/-- The record tells of the event: all of it, or how many links or rectangles it had. Numbers beyond the largest
word count as that. -/
inductive Event.Recorded : Event → Record → Prop
  | push (event : PushEvent) : Recorded (.push event) (.push event)
  | occlusion (event : OcclusionEvent) : Recorded (.occlusion event) (.occlusion event)
  | damage (event : DamageEvent) : Recorded (.damage event) (.damage event)
  | phaseBegin (mark : PhaseMark) : Recorded (.phaseBegin mark) (.phaseBegin mark)
  | phaseEnd (mark : PhaseMark) : Recorded (.phaseEnd mark) (.phaseEnd mark)
  | summary (summary : Summary) : Recorded (.summary summary) (.summary summary)
  | links (frame : UInt64) (told : List Link) (count : UInt32)
      (hcount : count.toNat = min told.length (pow2 32 - 1)) : Recorded (.links frame told) (.linkCount frame count)
  | rects (frame : UInt64) (told : List PixelRect) (count : UInt32)
      (hcount : count.toNat = min told.length (pow2 32 - 1)) : Recorded (.rects frame told) (.rectCount frame count)

theorem toNat_cappedCount (length : Nat) : (cappedCount length).toNat = min length (pow2 32 - 1) := by
  have hlt : min length (pow2 32 - 1) < UInt32.size :=
    Nat.lt_of_le_of_lt (Nat.min_le_right _ _) (by decide)
  exact UInt32.toNat_ofNat_of_lt' hlt

theorem Event.recorded_record (e : Event) : e.Recorded e.record := by
  cases e with
  | push e => exact .push e
  | occlusion e => exact .occlusion e
  | damage e => exact .damage e
  | phaseBegin m => exact .phaseBegin m
  | phaseEnd m => exact .phaseEnd m
  | summary s => exact .summary s
  | links frame told => exact .links frame told _ (toNat_cappedCount _)
  | rects frame told => exact .rects frame told _ (toNat_cappedCount _)

theorem Tracer.emitAll_recorder (bytes : List UInt8) (events : List Event) :
    Tracer.emitAll ⟨some (.recorder bytes)⟩ events = ⟨some (.recorder (bytes ++ recording events))⟩ := by
  induction events generalizing bytes with
  | nil => simp [Tracer.emitAll, recording]
  | cons e events ih =>
    show Tracer.emitAll ⟨some (.recorder (bytes ++ e.record.bytes))⟩ events = _
    rw [ih, recording, recording, List.flatMap_cons, List.append_assoc]

/-- **A recording is read back, and nothing of it reaches what follows.** Events traced to a recorder leave bytes from
which, whatever bytes follow, first what they recorded is read and then what would be read of the rest alone. -/
theorem decode_emitAll (events : List Event) :
    ∃ bytes records, (Tracer.emitAll ⟨some (.recorder [])⟩ events).sink = some (.recorder bytes) ∧
      List.Forall₂ Event.Recorded events records ∧
      ∀ rest, decode (bytes ++ rest) = records ++ decode rest := by
  refine ⟨recording events, events.map Event.record, ?_, ?_, fun rest => ?_⟩
  · rw [Tracer.emitAll_recorder, List.nil_append]
  · rw [List.forall₂_map_right_iff, List.forall₂_same]
    exact fun e _ => e.recorded_record
  · rw [recording, ← List.flatMap_map, decode_flatMap_append]

end Repaint
