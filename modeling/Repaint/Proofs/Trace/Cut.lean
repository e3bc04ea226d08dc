import Repaint.Proofs.Trace.Recording
import Mathlib.Order.Bounds.Basic

/-!
# Recordings that were cut off

A recording may end anywhere, in the middle of a record or of a word. What is read of it is what was recorded whole, and
nothing else (`decode_take_emitAll`).

* **one record** — no record is found in a part of its bytes (`Record.next_of_part`): what a read finds it also finds
  when the missing bytes follow, and then it takes them all;
* **many records** — so reading goes on up to the record that was cut, and stops there (`decode_take_recording`).
-/

namespace Repaint

/-- Nothing is found in a part of a record: with the missing bytes it would be found too, and leave them. -/
theorem Record.next_of_part {record : Record} {part missing : List UInt8} (hpart : part ++ missing = record.bytes)
    (hmissing : missing ≠ []) (position : Nat) : (⟨position, part⟩ : Reader).next.1 = none := by
  cases hnext : (⟨position, part⟩ : Reader).next with
  | mk found r =>
    cases found with
    | none => rfl
    | some other =>
      have hwhole := Read.composed_record.steady hnext missing
      have htaken := Read.takes_record record position []
      rw [List.append_nil, ← hpart] at htaken
      have hrest : r.rest ++ missing = [] := congrArg (fun result => result.2.rest) (hwhole.symm.trans htaken)
      exact absurd (List.append_eq_nil_iff.mp hrest).2 hmissing

theorem recording_cons (e : Event) (events : List Event) :
    recording (e :: events) = e.record.bytes ++ recording events := List.flatMap_cons

/-! ## Events before the cut -/

/-- The numbers of events, from the first one on, whose records lie within so many bytes. -/
def wholeWithin (events : List Event) (length : Nat) : Set Nat :=
  {count | count ≤ events.length ∧ (recording (events.take count)).length ≤ length}

section

variable {e : Event} {events : List Event} {length count : Nat}

theorem succ_mem_wholeWithin : count + 1 ∈ wholeWithin (e :: events) length ↔
    e.record.bytes.length ≤ length ∧ count ∈ wholeWithin events (length - e.record.bytes.length) := by
  simp only [wholeWithin, Set.mem_ofPred_eq, List.take_succ_cons, recording_cons, List.length_append, List.length_cons]
  omega

theorem zero_mem_wholeWithin : 0 ∈ wholeWithin events length := ⟨Nat.zero_le _, Nat.zero_le _⟩

/-- A record that lies before the cut is one more than those that lie behind it. -/
theorem isGreatest_wholeWithin_succ (hfits : e.record.bytes.length ≤ length)
    (h : IsGreatest (wholeWithin events (length - e.record.bytes.length)) count) :
    IsGreatest (wholeWithin (e :: events) length) (count + 1) := by
  refine ⟨succ_mem_wholeWithin.mpr ⟨hfits, h.1⟩, fun other hother => ?_⟩
  cases other with
  | zero => exact Nat.zero_le _
  | succ other => exact Nat.succ_le_succ (h.2 (succ_mem_wholeWithin.mp hother).2)

theorem isGreatest_wholeWithin_zero (hcut : length < e.record.bytes.length) :
    IsGreatest (wholeWithin (e :: events) length) 0 := by
  refine ⟨zero_mem_wholeWithin, fun other hother => ?_⟩
  cases other with
  | zero => exact Nat.le_refl _
  | succ other => exact absurd (succ_mem_wholeWithin.mp hother).1 (Nat.not_le.mpr hcut)

end

/-- Of the first bytes of a recording, the records that lie in them are read one after the other, and the next reading
finds nothing. -/
theorem decode_take_recording (events : List Event) (length : Nat) :
    ∃ count, IsGreatest (wholeWithin events length) count ∧
      decode ((recording events).take length) = (events.take count).map Event.record ∧
      ∀ position, (⟨position, (recording events).take length⟩ : Reader).poll (count + 1) =
        (events.take count).map (fun e => some e.record) ++ [none] := by
  induction events generalizing length with
  | nil =>
    refine ⟨0, ⟨zero_mem_wholeWithin, fun count hcount => hcount.1⟩, ?_⟩
    rw [show (recording []).take length = [] from List.take_nil]
    exact ⟨rfl, fun position => rfl⟩
  | cons e events ih =>
    rcases Nat.lt_or_ge length e.record.bytes.length with hcut | hfits
    · -- the cut goes through the first record
      have hpart : (recording (e :: events)).take length = e.record.bytes.take length := by
        rw [recording_cons, List.take_append_of_le_length (Nat.le_of_lt hcut)]
      have hmissing : e.record.bytes.drop length ≠ [] := by
        rw [ne_eq, List.drop_eq_nil_iff]
        exact Nat.not_le.mpr hcut
      have hnone := Record.next_of_part (List.take_append_drop length e.record.bytes) hmissing
      refine ⟨0, isGreatest_wholeWithin_zero hcut, ?_, fun position => ?_⟩
      · rw [hpart]
        exact decode_of_none (hnone 0)
      · rw [hpart, Reader.poll, Reader.poll, hnone position]
        rfl
    · -- the first record lies before the cut, and the others are cut as if they stood alone
      obtain ⟨count, hgreatest, hdecode, hpoll⟩ := ih (length - e.record.bytes.length)
      have hwhole : (recording (e :: events)).take length =
          e.record.bytes ++ (recording events).take (length - e.record.bytes.length) := by
        rw [recording_cons, List.take_append, List.take_of_length_le hfits]
      refine ⟨count + 1, isGreatest_wholeWithin_succ hfits hgreatest, ?_, fun position => ?_⟩
      · rw [hwhole, decode_bytes_append, hdecode, List.take_succ_cons, List.map_cons]
      · have hnext := Read.takes_record e.record position ((recording events).take (length - e.record.bytes.length))
        rw [hwhole, Reader.poll, Reader.next, hnext, hpoll, List.take_succ_cons, List.map_cons, List.cons_append]

/-- **A recording that was cut off is read up to the cut.** Events traced to a recorder leave bytes. Of any number of
them, from the start, the first so many of the events are read of which all bytes are there, each of them as it is read
from the whole recording, and the next reading finds nothing. -/
theorem decode_take_emitAll (events : List Event) :
    ∃ bytes, (Tracer.emitAll ⟨some (.recorder [])⟩ events).sink = some (.recorder bytes) ∧
      List.Forall₂ Event.Recorded events (decode bytes) ∧
      ∀ length, ∃ count, IsGreatest (wholeWithin events length) count ∧
        decode (bytes.take length) = (decode bytes).take count ∧
        (Reader.start (bytes.take length)).poll (count + 1) = ((decode bytes).take count).map some ++ [none] := by
  refine ⟨recording events, ?_, ?_, fun length => ?_⟩
  · rw [Tracer.emitAll_recorder, List.nil_append]
  · rw [decode_recording, List.forall₂_map_right_iff, List.forall₂_same]
    exact fun e _ => e.recorded_record
  · obtain ⟨count, hgreatest, hdecode, hpoll⟩ := decode_take_recording events length
    refine ⟨count, hgreatest, ?_, ?_⟩
    · rw [hdecode, decode_recording, List.map_take]
    · rw [decode_recording, ← List.map_take, List.map_map]
      exact hpoll 0

end Repaint
