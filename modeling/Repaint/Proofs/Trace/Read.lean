import Repaint.Trace.Reader
import Mathlib.Data.List.Basic

/-!
# Reading what was written

Three properties of a read, each kept when reads are put in sequence:

* `Read.Takes` — the read takes exactly some bytes, whatever follows them, and finds a value in them. What
  `Record.bytes` writes is taken for the record (`Read.takes_record`).
* `Read.Forward` — on any bytes at all the read moves on by a number of them, and neither that number nor what it
  finds depends on where the reader stands. A reader of records moves on unless it is at the end
  (`Reader.next_forward`).
* `Read.Steady` — what the read finds it also finds when more bytes follow.

What is taken differs from read to read. The other two hold of every read that is made of steps that take bytes
(`Read.Composed`), as all reads of this library are.
-/

namespace Repaint

namespace Read

variable {α β : Type}

theorem bind_of_some {read : Read α} {r r' : Reader} {a : α} (h : read r = (some a, r')) (next : α → Read β) :
    (read >>= next) r = next a r' := by
  simp only [bind, h]

theorem bind_of_none {read : Read α} {r r' : Reader} (h : read r = (none, r')) (next : α → Read β) :
    (read >>= next) r = (none, r') := by
  simp only [bind, h]

/-! ## Bytes of numbers -/

@[simp] theorem length_bytesOfNat (count n : Nat) : (bytesOfNat count n).length = count := by
  induction count generalizing n with
  | zero => rfl
  | succ count ih => rw [bytesOfNat, List.length_cons, ih]

/-- A number that fits is read back from its bytes. -/
theorem natOfBytes_bytesOfNat {count n : Nat} (h : n < Nat.pow 256 count) :
    natOfBytes (bytesOfNat count n) = n := by
  induction count generalizing n with
  | zero =>
    have hzero : n < 1 := h
    rw [bytesOfNat, natOfBytes]
    omega
  | succ count ih =>
    have hrest : n / 256 < Nat.pow 256 count := Nat.div_lt_of_lt_mul (Nat.mul_comm _ _ ▸ h)
    rw [bytesOfNat, natOfBytes, ih hrest, UInt8.toNat_ofNat']
    exact Nat.mod_add_div n 256

/-! ## Taking bytes -/

/-- The read takes the bytes, whatever follows, and finds the value in them. -/
def Takes (read : Read α) (bytes : List UInt8) (a : α) : Prop :=
  ∀ position rest, read ⟨position, bytes ++ rest⟩ = (some a, ⟨position + bytes.length, rest⟩)

theorem takes_pure (a : α) : (pure a : Read α).Takes [] a := fun _ _ => rfl

theorem Takes.bind {read : Read α} {next : α → Read β} {first second : List UInt8} {a : α} {b : β}
    (h : read.Takes first a) (h' : (next a).Takes second b) : (read >>= next).Takes (first ++ second) b := by
  intro position rest
  rw [List.append_assoc, bind_of_some (h position (second ++ rest)), h', List.length_append, Nat.add_assoc]

/-- What is found may be wrapped up. -/
theorem Takes.map {read : Read α} {bytes : List UInt8} {a : α} (h : read.Takes bytes a) (f : α → β) :
    (read >>= fun a => pure (f a)).Takes bytes (f a) := by
  have hmap : (read >>= fun a => pure (f a)).Takes (bytes ++ []) (f a) := h.bind (takes_pure (f a))
  rwa [List.append_nil] at hmap

theorem takes_bytes (taken : List UInt8) : (bytes taken.length).Takes taken taken := by
  intro position rest
  simp [bytes]

theorem takes_nat {count n : Nat} (h : n < Nat.pow 256 count) : (nat count).Takes (bytesOfNat count n) n := by
  have htaken := takes_bytes (bytesOfNat count n)
  rw [length_bytesOfNat] at htaken
  have hnat := htaken.map natOfBytes
  rwa [natOfBytes_bytesOfNat h] at hnat

theorem takes_byte (b : UInt8) : byte.Takes [b] b.toNat := (takes_bytes [b]).map natOfBytes

theorem takes_word32 (w : UInt32) : word32.Takes (Repaint.word32 w) w := by
  have hnat : (nat 4).Takes (Repaint.word32 w) w.toNat := takes_nat w.toNat_lt
  have hword := hnat.map UInt32.ofNat
  rwa [UInt32.ofNat_toNat] at hword

theorem takes_word64 (w : UInt64) : word64.Takes (Repaint.word64 w) w := by
  have hnat : (nat 8).Takes (Repaint.word64 w) w.toNat := takes_nat w.toNat_lt
  have hword := hnat.map UInt64.ofNat
  rwa [UInt64.ofNat_toNat] at hword

theorem takes_flag (f : Bool) : flag.Takes [flagByte f] f := by
  cases f with
  | false => exact (takes_byte 0).map (fun b => decide (b ≠ 0))
  | true => exact (takes_byte 1).map (fun b => decide (b ≠ 0))

theorem takes_phase (p : Phase) : phase.Takes [p.byte] p := by
  cases p with
  | append => exact (takes_byte 0).bind (takes_pure Phase.append)
  | occlusion => exact (takes_byte 1).bind (takes_pure Phase.occlusion)
  | damage => exact (takes_byte 2).bind (takes_pure Phase.damage)

theorem takes_phaseMark (m : PhaseMark) : phaseMark.Takes m.bytes m :=
  (takes_word64 m.frame).bind ((takes_phase m.phase).bind ((takes_word64 m.time).map _))

theorem takes_pushEvent (e : PushEvent) :
    pushEvent.Takes (Repaint.word64 e.frame ++ (Repaint.word64 e.generation ++ (Repaint.word32 e.candidates ++
      (Repaint.word32 e.layers ++ (Repaint.word32 e.newLayers ++ (Repaint.word32 e.removed ++
        Repaint.word32 e.capacity)))))) e :=
  (takes_word64 e.frame).bind ((takes_word64 e.generation).bind ((takes_word32 e.candidates).bind
    ((takes_word32 e.layers).bind ((takes_word32 e.newLayers).bind ((takes_word32 e.removed).bind
      ((takes_word32 e.capacity).map _))))))

theorem takes_occlusionEvent (e : OcclusionEvent) :
    occlusionEvent.Takes (Repaint.word64 e.frame ++ (Repaint.word32 e.visited ++ (Repaint.word32 e.culled ++
      Repaint.word32 e.occluders))) e :=
  (takes_word64 e.frame).bind ((takes_word32 e.visited).bind ((takes_word32 e.culled).bind
    ((takes_word32 e.occluders).map _)))

theorem takes_damageEvent (e : DamageEvent) :
    damageEvent.Takes (Repaint.word64 e.frame ++ (Repaint.word32 e.age ++ flagByte e.full ::
      Repaint.word32 e.rects)) e :=
  (takes_word64 e.frame).bind ((takes_word32 e.age).bind ((takes_flag e.full).bind
    ((takes_word32 e.rects).map _)))

theorem takes_summaryFields (s : Summary) :
    summaryFields.Takes (Repaint.word64 s.frame ++ (Repaint.word64 s.generation ++ (Repaint.word32 s.layers ++
      (Repaint.word32 s.newLayers ++ (Repaint.word32 s.removed ++ (Repaint.word32 s.culled ++
        flagByte s.damageFull :: (Repaint.word32 s.damageRects ++ (Repaint.word64 s.appendTime ++
          (Repaint.word64 s.occlusionTime ++ Repaint.word64 s.damageTime))))))))) s :=
  (takes_word64 s.frame).bind ((takes_word64 s.generation).bind ((takes_word32 s.layers).bind
    ((takes_word32 s.newLayers).bind ((takes_word32 s.removed).bind ((takes_word32 s.culled).bind
      ((takes_flag s.damageFull).bind ((takes_word32 s.damageRects).bind ((takes_word64 s.appendTime).bind
        ((takes_word64 s.occlusionTime).bind ((takes_word64 s.damageTime).map _))))))))))

/-- A record is read back from its bytes: the tag byte chooses the fields that were written behind it. -/
theorem takes_record (r : Record) : record.Takes r.bytes r := by
  cases r with
  | push e =>
    simp only [Record.bytes, List.append_assoc]
    exact (takes_byte 1).bind ((takes_pushEvent e).map Record.push)
  | occlusion e =>
    simp only [Record.bytes, List.append_assoc]
    exact (takes_byte 2).bind ((takes_occlusionEvent e).map Record.occlusion)
  | damage e =>
    simp only [Record.bytes, List.append_assoc]
    exact (takes_byte 3).bind ((takes_damageEvent e).map Record.damage)
  | phaseBegin m => exact (takes_byte 4).bind ((takes_phaseMark m).map Record.phaseBegin)
  | phaseEnd m => exact (takes_byte 5).bind ((takes_phaseMark m).map Record.phaseEnd)
  | summary s =>
    simp only [Record.bytes, List.append_assoc, List.cons_append]
    exact (takes_byte 6).bind ((takes_summaryFields s).map Record.summary)
  | linkCount frame count =>
    exact (takes_byte 7).bind ((takes_word64 frame).bind ((takes_word32 count).map (Record.linkCount frame)))
  | rectCount frame count =>
    exact (takes_byte 8).bind ((takes_word64 frame).bind ((takes_word32 count).map (Record.rectCount frame)))

/-! ## Moving forward -/

/-- The read takes some of the bytes ahead. What it finds and how far it moves do not depend on its place. -/
def Forward (read : Read α) : Prop :=
  ∀ rest, ∃ result, ∃ taken ≤ rest.length,
    ∀ position, read ⟨position, rest⟩ = (result, ⟨position + taken, rest.drop taken⟩)

theorem forward_pure (a : α) : (pure a : Read α).Forward :=
  fun _ => ⟨some a, 0, Nat.zero_le _, fun _ => rfl⟩

theorem forward_fail : (fail : Read α).Forward := fun _ => ⟨none, 0, Nat.zero_le _, fun _ => rfl⟩

theorem forward_bytes (count : Nat) : (bytes count).Forward := by
  intro rest
  by_cases h : (rest.take count).length = count
  · refine ⟨some (rest.take count), count, ?_, fun position => by simp only [bytes, if_pos h]⟩
    rw [List.length_take] at h
    omega
  · exact ⟨none, 0, Nat.zero_le _, fun position => by simp only [bytes, if_neg h]; rfl⟩

theorem Forward.bind {read : Read α} {next : α → Read β} (h : read.Forward) (h' : ∀ a, (next a).Forward) :
    (read >>= next).Forward := by
  intro rest
  obtain ⟨result, taken, hle, hread⟩ := h rest
  cases result with
  | none => exact ⟨none, taken, hle, fun position => bind_of_none (hread position) next⟩
  | some a =>
    -- the second read begins where the first one ended
    obtain ⟨result', taken', hle', hnext⟩ := h' a (rest.drop taken)
    rw [List.length_drop] at hle'
    refine ⟨result', taken + taken', by omega, fun position => ?_⟩
    rw [bind_of_some (hread position), hnext, List.drop_drop, Nat.add_assoc]

/-! ## Further bytes -/

/-- What the read finds it also finds when more bytes follow, and it leaves those. -/
def Steady (read : Read α) : Prop :=
  ∀ {position rest a r}, read ⟨position, rest⟩ = (some a, r) →
    ∀ more, read ⟨position, rest ++ more⟩ = (some a, ⟨r.position, r.rest ++ more⟩)

theorem steady_pure (a : α) : (pure a : Read α).Steady := by
  rintro position rest _ _ ⟨⟩ more
  rfl

theorem steady_fail : (fail : Read α).Steady := by
  rintro position rest _ _ ⟨⟩

theorem steady_bytes (count : Nat) : (bytes count).Steady := by
  intro position rest a r h more
  by_cases henough : (rest.take count).length = count
  · have hle : count ≤ rest.length := by
      rw [List.length_take] at henough
      omega
    simp only [bytes, if_pos henough] at h
    cases h
    simp only [bytes, List.take_append_of_le_length hle, List.drop_append_of_le_length hle, if_pos henough]
  · simp only [bytes, if_neg henough] at h
    cases h

theorem Steady.bind {read : Read α} {next : α → Read β} (h : read.Steady) (h' : ∀ a, (next a).Steady) :
    (read >>= next).Steady := by
  intro position rest b r hread more
  cases hfirst : read ⟨position, rest⟩ with
  | mk result r' =>
    cases result with
    | none =>
      rw [bind_of_none hfirst] at hread
      cases hread
    | some a =>
      rw [bind_of_some hfirst] at hread
      rw [bind_of_some (h hfirst more)]
      exact h' a hread more

/-! ## How reads are made -/

/-- The read is made of steps that take a number of bytes, of which what is found decides on the next one. -/
inductive Composed : {α : Type} → Read α → Prop
  | pure {α : Type} (a : α) : Composed (pure a : Read α)
  | fail {α : Type} : Composed (fail : Read α)
  | bytes (count : Nat) : Composed (bytes count)
  | bind {α β : Type} {read : Read α} {next : α → Read β} (first : Composed read)
      (second : ∀ a, Composed (next a)) : Composed (read >>= next)

theorem Composed.forward {read : Read α} (h : read.Composed) : read.Forward := by
  induction h with
  | pure a => exact forward_pure a
  | fail => exact forward_fail
  | bytes count => exact forward_bytes count
  | bind _ _ ih ih' => exact ih.bind ih'

theorem Composed.steady {read : Read α} (h : read.Composed) : read.Steady := by
  induction h with
  | pure a => exact steady_pure a
  | fail => exact steady_fail
  | bytes count => exact steady_bytes count
  | bind _ _ ih ih' => exact Steady.bind ih ih'

theorem composed_nat (count : Nat) : (nat count).Composed := .bind (.bytes count) fun _ => .pure _

theorem composed_byte : byte.Composed := composed_nat 1

theorem composed_word32 : word32.Composed := .bind (composed_nat 4) fun _ => .pure _

theorem composed_word64 : word64.Composed := .bind (composed_nat 8) fun _ => .pure _

theorem composed_flag : flag.Composed := .bind composed_byte fun _ => .pure _

theorem composed_phase : phase.Composed := by
  refine .bind composed_byte fun b => ?_
  split <;> exact .pure _

theorem composed_phaseMark : phaseMark.Composed :=
  .bind composed_word64 fun _ => .bind composed_phase fun _ => .bind composed_word64 fun _ => .pure _

theorem composed_pushEvent : pushEvent.Composed :=
  .bind composed_word64 fun _ => .bind composed_word64 fun _ => .bind composed_word32 fun _ =>
    .bind composed_word32 fun _ => .bind composed_word32 fun _ => .bind composed_word32 fun _ =>
      .bind composed_word32 fun _ => .pure _

theorem composed_occlusionEvent : occlusionEvent.Composed :=
  .bind composed_word64 fun _ => .bind composed_word32 fun _ => .bind composed_word32 fun _ =>
    .bind composed_word32 fun _ => .pure _

theorem composed_damageEvent : damageEvent.Composed :=
  .bind composed_word64 fun _ => .bind composed_word32 fun _ => .bind composed_flag fun _ =>
    .bind composed_word32 fun _ => .pure _

theorem composed_summaryFields : summaryFields.Composed :=
  .bind composed_word64 fun _ => .bind composed_word64 fun _ => .bind composed_word32 fun _ =>
    .bind composed_word32 fun _ => .bind composed_word32 fun _ => .bind composed_word32 fun _ =>
      .bind composed_flag fun _ => .bind composed_word32 fun _ => .bind composed_word64 fun _ =>
        .bind composed_word64 fun _ => .bind composed_word64 fun _ => .pure _

/-- A record is a tag byte, and what is read behind the tag is composed whatever the tag. -/
theorem record_eq_bind : ∃ fields : Nat → Read Record, record = byte >>= fields ∧ ∀ tag, (fields tag).Composed := by
  refine ⟨_, rfl, fun tag => ?_⟩
  split
  · exact .bind composed_pushEvent fun _ => .pure _
  · exact .bind composed_occlusionEvent fun _ => .pure _
  · exact .bind composed_damageEvent fun _ => .pure _
  · exact .bind composed_phaseMark fun _ => .pure _
  · exact .bind composed_phaseMark fun _ => .pure _
  · exact .bind composed_summaryFields fun _ => .pure _
  · exact .bind composed_word64 fun _ => .bind composed_word32 fun _ => .pure _
  · exact .bind composed_word64 fun _ => .bind composed_word32 fun _ => .pure _
  · exact .fail

theorem composed_record : record.Composed := by
  obtain ⟨fields, hrecord, hfields⟩ := record_eq_bind
  rw [hrecord]
  exact .bind composed_byte hfields

end Read

namespace Reader

/-- Before the end the reader moves on by at least the tag. What it finds does not depend on its place. -/
theorem next_forward {rest : List UInt8} (h : rest ≠ []) :
    ∃ result, ∃ taken ≤ rest.length, 0 < taken ∧
      ∀ position, (⟨position, rest⟩ : Reader).next = (result, ⟨position + taken, rest.drop taken⟩) := by
  obtain ⟨tag, rest, rfl⟩ := List.exists_cons_of_ne_nil h
  obtain ⟨fields, hrecord, hfields⟩ := Read.record_eq_bind
  obtain ⟨result, taken, hle, hread⟩ := (hfields tag.toNat).forward rest
  refine ⟨result, taken + 1, Nat.succ_le_succ hle, Nat.succ_pos _, fun position => ?_⟩
  have htag : Read.byte ⟨position, tag :: rest⟩ = (some tag.toNat, ⟨position + 1, rest⟩) :=
    Read.takes_byte tag position rest
  rw [next, hrecord, Read.bind_of_some htag, hread, List.drop_succ_cons, Nat.add_right_comm, Nat.add_assoc]

end Reader

end Repaint
