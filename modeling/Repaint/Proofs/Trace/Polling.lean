import Repaint.Proofs.Trace.Settled

/-!
# Polling to the end and beyond

A reader may be polled on where it found nothing. It then goes on from where the last call gave up, which may be the
middle of a record. Whatever the bytes, and however often it is polled (`poll_progress`):

* **places** — it stands before what is left of the recording (`Reader.Within`), after each call and within a call
  wherever bytes are asked for (`Read.Asks`), so no call looks behind the end;
* **calls** — a call goes back nowhere, before the end it goes on, and what it finds is as long as the way it went
  (`Reader.Progress`);
* **the end** — as many calls as there are bytes reach it (`le_position_after`), and nothing is found there.
-/

namespace Repaint

variable {bytes : List UInt8} {r place : Reader}

/-! ## Places in a recording -/

/-- The reader stands in the recording, before all that is behind its place. -/
structure Reader.Within (r : Reader) (bytes : List UInt8) : Prop where
  position_le : r.position ≤ bytes.length
  rest : r.rest = bytes.drop r.position

theorem Reader.within_start (bytes : List UInt8) : (Reader.start bytes).Within bytes :=
  ⟨Nat.zero_le _, rfl⟩

theorem Reader.Within.length_rest (h : r.Within bytes) : r.rest.length = bytes.length - r.position := by
  rw [h.rest, List.length_drop]

namespace Read

variable {α β : Type} {read : Read α}

theorem Forward.within (h : read.Forward) (hr : r.Within bytes) :
    (read r).2.Within bytes ∧ r.position ≤ (read r).2.position := by
  have hleft := hr.length_rest
  have hposition := hr.position_le
  obtain ⟨result, taken, htaken, hread⟩ := h r.rest
  have hplace : read r = (result, ⟨r.position + taken, r.rest.drop taken⟩) := hread r.position
  rw [hplace]
  refine ⟨⟨?_, ?_⟩, Nat.le_add_right _ _⟩
  · show r.position + taken ≤ bytes.length
    omega
  · show r.rest.drop taken = bytes.drop (r.position + taken)
    rw [hr.rest, List.drop_drop]

/-- Bytes that are taken lie in the recording. -/
theorem slice_of_bytes {count : Nat} {taken : List UInt8} (h : place.Within bytes)
    (htaken : (Read.bytes count place).1 = some taken) :
    place.position + count ≤ bytes.length ∧ taken = (bytes.drop place.position).take count := by
  have hread : Read.bytes count place = (some taken, (Read.bytes count place).2) := Prod.ext htaken rfl
  obtain ⟨hlength, hrest, _⟩ := bytes_eq_some hread
  have hleft := h.length_rest
  have hposition := h.position_le
  rw [hrest, List.length_append, hlength] at hleft
  refine ⟨by omega, ?_⟩
  rw [← h.rest, hrest, ← hlength, List.take_left]

/-- In the course of the read from `r`, so many bytes are asked for at `place`. -/
inductive Asks : {α : Type} → Read α → Reader → Reader → Nat → Prop
  | here (count : Nat) (r : Reader) : Asks (Read.bytes count) r r count
  | first {α β : Type} {read : Read α} {next : α → Read β} {r place : Reader} {count : Nat}
      (asked : Asks read r place count) : Asks (read >>= next) r place count
  | second {α β : Type} {read : Read α} {next : α → Read β} {r r' place : Reader} {a : α} {count : Nat}
      (composed : read.Composed) (found : read r = (some a, r')) (asked : Asks (next a) r' place count) :
      Asks (read >>= next) r place count

/-- Bytes are asked for within the recording, and at no place that was passed before. -/
theorem Asks.within {count : Nat} (h : read.Asks r place count) (hr : r.Within bytes) :
    place.Within bytes ∧ r.position ≤ place.position := by
  induction h with
  | here count r => exact ⟨hr, Nat.le_refl _⟩
  | first asked ih => exact ih hr
  | second composed found asked ih =>
    obtain ⟨hmid, hforward⟩ := composed.forward.within hr
    rw [found] at hmid hforward
    obtain ⟨hplace, hon⟩ := ih hmid
    exact ⟨hplace, Nat.le_trans hforward hon⟩

end Read

/-! ## One call -/

namespace Reader

/-- What a call does at a place of a recording. -/
structure Progress (r : Reader) (bytes : List UInt8) : Prop where
  /-- The call goes back nowhere, and not behind the end. -/
  forward : r.position ≤ r.next.2.position
  position_le : r.next.2.position ≤ bytes.length
  /-- Wherever bytes are asked for, the recording has not ended yet, and what is taken is a part of it. -/
  asked : ∀ place count, Read.record.Asks r place count → place.position ≤ bytes.length ∧
    ∀ taken, (Read.bytes count place).1 = some taken →
      place.position + count ≤ bytes.length ∧ taken = (bytes.drop place.position).take count
  /-- Before the end the call goes on. -/
  moves : r.position < bytes.length → r.position < r.next.2.position
  /-- What is found is as long as the way that the call went. -/
  found : ∀ record, r.next.1 = some record → r.next.2.position = r.position + record.bytes.length
  /-- At the end nothing is found, and the reader stays. -/
  ended : r.position = bytes.length → r.next = (none, r)

theorem Within.next (h : r.Within bytes) : r.next.2.Within bytes :=
  (Read.composed_record.forward.within h).1

theorem Within.progress (h : r.Within bytes) : r.Progress bytes where
  forward := (Read.composed_record.forward.within h).2
  position_le := h.next.position_le
  asked place count hasked := by
    obtain ⟨hplace, _⟩ := hasked.within h
    exact ⟨hplace.position_le, fun taken htaken => Read.slice_of_bytes hplace htaken⟩
  moves hbefore := by
    have hrest : r.rest ≠ [] := by
      rw [h.rest, ne_eq, List.drop_eq_nil_iff]
      omega
    obtain ⟨result, taken, _, hpos, hnext⟩ := next_forward hrest
    have hplace : r.next = (result, ⟨r.position + taken, r.rest.drop taken⟩) := hnext r.position
    rw [hplace]
    exact Nat.lt_add_of_pos_right hpos
  found record hrecord := by
    have hnext : r.next = (some record, r.next.2) := Prod.ext hrecord rfl
    exact (passes_next hnext).position_eq
  ended hend := by
    obtain ⟨position, rest⟩ := r
    obtain rfl : rest = [] := h.rest.trans (List.drop_eq_nil_of_le (Nat.le_of_eq hend.symm))
    rfl

/-! ## Many calls -/

theorem after_succ (calls : Nat) (r : Reader) : r.after (calls + 1) = (r.after calls).next.2 := by
  induction calls generalizing r with
  | zero => rfl
  | succ calls ih => exact ih r.next.2

theorem Within.after (h : r.Within bytes) (calls : Nat) : (r.after calls).Within bytes := by
  induction calls with
  | zero => exact h
  | succ calls ih =>
    rw [after_succ]
    exact ih.next

/-- Each call takes a byte, as long as there is one. -/
theorem le_position_after (bytes : List UInt8) (calls : Nat) :
    min calls bytes.length ≤ ((start bytes).after calls).position := by
  induction calls with
  | zero => exact Nat.le_trans (Nat.min_le_left _ _) (Nat.zero_le _)
  | succ calls ih =>
    have hprogress := ((within_start bytes).after calls).progress
    have hforward := hprogress.forward
    have hmoves := hprogress.moves
    rw [after_succ]
    omega

theorem length_poll (count : Nat) (r : Reader) : (r.poll count).length = count := by
  induction count generalizing r with
  | zero => rfl
  | succ count ih => rw [poll, List.length_cons, ih]

theorem poll_add (count more : Nat) (r : Reader) :
    r.poll (count + more) = r.poll count ++ (r.after count).poll more := by
  induction count generalizing r with
  | zero => rw [Nat.zero_add]; rfl
  | succ count ih => rw [Nat.succ_add, poll, poll, after, ih, List.cons_append]

/-- At the end nothing is found any more. -/
theorem Within.poll_ended (h : r.Within bytes) (hend : r.position = bytes.length) (count : Nat) :
    r.poll count = List.replicate count none := by
  induction count with
  | zero => rfl
  | succ count ih => rw [poll, h.progress.ended hend, ih, List.replicate_succ]

end Reader

/-- **A reader may be polled as often as one likes.** After any number of calls on any bytes, those included that found
nothing, the next call stays within the bytes wherever it looks, goes back nowhere, goes on unless it is at the end, and
goes exactly as far as the record that it finds is long. Once at the end the reader finds nothing any more, so no call
finds anything after as many calls as there are bytes. -/
theorem poll_progress (bytes : List UInt8) :
    (∀ calls, ((Reader.start bytes).after calls).Progress bytes) ∧
    (∀ calls, ((Reader.start bytes).after calls).position = bytes.length →
      ∀ count, ((Reader.start bytes).after calls).poll count = List.replicate count none) ∧
    ∀ count, ((Reader.start bytes).poll count).drop bytes.length = List.replicate (count - bytes.length) none := by
  have hwithin := (Reader.within_start bytes).after
  refine ⟨fun calls => (hwithin calls).progress, fun calls hend => (hwithin calls).poll_ended hend, fun count => ?_⟩
  rcases Nat.le_total count bytes.length with hfew | hmany
  · rw [List.drop_of_length_le (by rw [Reader.length_poll]; exact hfew), Nat.sub_eq_zero_of_le hfew]
    rfl
  · -- the calls that there are bytes for reach the end, and the others find nothing there
    obtain ⟨more, rfl⟩ := Nat.exists_eq_add_of_le hmany
    have hreached := Reader.le_position_after bytes bytes.length
    have hposition := (hwithin bytes.length).position_le
    have hend : ((Reader.start bytes).after bytes.length).position = bytes.length := by omega
    rw [Reader.poll_add, List.drop_left' (Reader.length_poll _ _), (hwithin bytes.length).poll_ended hend,
      Nat.add_sub_cancel_left]

end Repaint
