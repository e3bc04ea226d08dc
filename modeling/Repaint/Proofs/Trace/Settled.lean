import Repaint.Proofs.Trace.Cut

/-!
# Recording again what was read

A reader accepts more than a recorder writes: every byte but zero sets a flag, and every byte beyond the phases stands
for the last of them. Recording again what was read, of any bytes at all, settles these bytes and no other
(`emitAll_decode`).

* **roles** — what each byte of a record stands for, and the byte that is recorded for it (`Record.roles`, `Settles`);
* **one record** — the bytes that a read passes settle to those of what it finds (`passes_record`), one lemma for each
  group of fields;
* **many records** — so do the bytes up to the first place where there is no record (`passes_records`).
-/

namespace Repaint

/-! ## Roles of bytes -/

/-- What a byte of a record stands for. -/
inductive ByteRole where
  /-- Itself: a tag, or a part of a word. -/
  | plain
  | flag
  | phase
deriving DecidableEq

/-- The byte that is recorded for what a byte in this role is read as. -/
def ByteRole.settle : ByteRole → UInt8 → UInt8
  | plain, b => b
  | flag, b => if b = 0 then 0 else 1
  | phase, b => if 2 < b then 2 else b

/-- The roles of the bytes of a word. -/
def ByteRole.word (count : Nat) : List ByteRole := List.replicate count .plain

open ByteRole (word)

/-- The roles of the bytes of a phase mark. -/
def PhaseMark.roles : List ByteRole := word 8 ++ .phase :: word 8

/-- The roles of the bytes of a record, from its tag on. -/
def Record.roles : Record → List ByteRole
  | .push _ => .plain :: (word 8 ++ word 8 ++ word 4 ++ word 4 ++ word 4 ++ word 4 ++ word 4)
  | .occlusion _ => .plain :: (word 8 ++ word 4 ++ word 4 ++ word 4)
  | .damage _ => .plain :: (word 8 ++ word 4 ++ .flag :: word 4)
  | .phaseBegin _ => .plain :: PhaseMark.roles
  | .phaseEnd _ => .plain :: PhaseMark.roles
  | .summary _ =>
    .plain :: (word 8 ++ word 8 ++ word 4 ++ word 4 ++ word 4 ++ word 4 ++ .flag :: word 4
      ++ word 8 ++ word 8 ++ word 8)
  | .linkCount _ _ => .plain :: (word 8 ++ word 4)
  | .rectCount _ _ => .plain :: (word 8 ++ word 4)

/-- There is a byte for each role, and what is recorded are these bytes, each settled in its role. -/
structure Settles (roles : List ByteRole) (found recorded : List UInt8) : Prop where
  length : found.length = roles.length
  bytes : recorded = List.zipWith ByteRole.settle roles found

namespace Settles

variable {roles roles' : List ByteRole} {found found' recorded recorded' : List UInt8}

theorem nil : Settles [] [] [] := ⟨rfl, rfl⟩

theorem append (h : Settles roles found recorded) (h' : Settles roles' found' recorded') :
    Settles (roles ++ roles') (found ++ found') (recorded ++ recorded') := by
  refine ⟨?_, ?_⟩
  · rw [List.length_append, List.length_append, h.length, h'.length]
  · rw [h.bytes, h'.bytes, List.zipWith_append h.length.symm]

theorem length_recorded (h : Settles roles found recorded) : recorded.length = found.length := by
  rw [h.bytes, List.length_zipWith, h.length, Nat.min_self]

/-- The bytes of a word are recorded as they are. -/
theorem word (found : List UInt8) : Settles (ByteRole.word found.length) found found := by
  refine ⟨List.length_replicate.symm, ?_⟩
  induction found with
  | nil => rfl
  | cons b found ih => exact congrArg (b :: ·) ih

theorem flag (b : UInt8) : Settles [.flag] [b] [flagByte (decide (b.toNat ≠ 0))] := by
  refine ⟨rfl, ?_⟩
  by_cases h : b = 0
  · subst h
    rfl
  · have hpos : b.toNat ≠ 0 := fun hzero => h (UInt8.toNat_inj.mp hzero)
    simp [ByteRole.settle, flagByte, h, hpos]

end Settles

/-! ## What a read passes -/

/-- From the one place to the other stand bytes that settle to those that are recorded. -/
def Reader.Passes (r r' : Reader) (roles : List ByteRole) (recorded : List UInt8) : Prop :=
  ∃ found, r.rest = found ++ r'.rest ∧ r'.position = r.position + found.length ∧ Settles roles found recorded

namespace Reader.Passes

variable {r mid r' : Reader} {roles roles' : List ByteRole} {recorded recorded' : List UInt8}

theorem refl (r : Reader) : r.Passes r [] [] := ⟨[], rfl, rfl, .nil⟩

theorem trans (h : r.Passes mid roles recorded) (h' : mid.Passes r' roles' recorded') :
    r.Passes r' (roles ++ roles') (recorded ++ recorded') := by
  obtain ⟨found, hrest, hposition, hsettles⟩ := h
  obtain ⟨found', hrest', hposition', hsettles'⟩ := h'
  refine ⟨found ++ found', ?_, ?_, hsettles.append hsettles'⟩
  · rw [hrest, hrest', List.append_assoc]
  · rw [hposition', hposition, List.length_append, Nat.add_assoc]

/-- As many bytes are recorded as were passed. -/
theorem position_eq (h : r.Passes r' roles recorded) : r'.position = r.position + recorded.length := by
  obtain ⟨found, _, hposition, hsettles⟩ := h
  rw [hposition, hsettles.length_recorded]

theorem length_rest (h : r.Passes r' roles recorded) : r.rest.length = recorded.length + r'.rest.length := by
  obtain ⟨found, hrest, _, hsettles⟩ := h
  rw [hrest, List.length_append, hsettles.length_recorded]

end Reader.Passes

namespace Read

variable {α β : Type} {r r' : Reader}

/-- What two reads in sequence find, the second one finds behind the first one. -/
theorem bind_eq_some {read : Read α} {next : α → Read β} {b : β} (h : (read >>= next) r = (some b, r')) :
    ∃ a mid, read r = (some a, mid) ∧ next a mid = (some b, r') := by
  cases hread : read r with
  | mk result mid =>
    cases result with
    | none =>
      rw [bind_of_none hread] at h
      cases h
    | some a =>
      rw [bind_of_some hread] at h
      exact ⟨a, mid, rfl, h⟩

theorem natOfBytes_lt (found : List UInt8) : natOfBytes found < Nat.pow 256 found.length := by
  induction found with
  | nil => exact Nat.one_pos
  | cons b found ih =>
    have hb := b.toNat_lt
    have hpow : Nat.pow 256 (found.length + 1) = Nat.pow 256 found.length * 256 := rfl
    rw [natOfBytes, List.length_cons, hpow]
    omega

/-- A number is written in the bytes that it was read from. -/
theorem bytesOfNat_natOfBytes (found : List UInt8) : bytesOfNat found.length (natOfBytes found) = found := by
  induction found with
  | nil => rfl
  | cons b found ih =>
    have hb := b.toNat_lt
    have hrest : (b.toNat + 256 * natOfBytes found) / 256 = natOfBytes found := by omega
    have hfirst : UInt8.ofNat (b.toNat + 256 * natOfBytes found) = b := by
      apply UInt8.toNat_inj.mp
      rw [UInt8.toNat_ofNat']
      omega
    rw [natOfBytes, List.length_cons, bytesOfNat, hfirst, hrest, ih]

theorem bytes_eq_some {count : Nat} {found : List UInt8} (h : bytes count r = (some found, r')) :
    found.length = count ∧ r.rest = found ++ r'.rest ∧ r'.position = r.position + count := by
  by_cases hlength : (r.rest.take count).length = count
  · simp only [bytes, if_pos hlength] at h
    cases h
    exact ⟨hlength, (List.take_append_drop count r.rest).symm, rfl⟩
  · simp only [bytes, if_neg hlength] at h
    cases h

theorem passes_nat {count n : Nat} (h : nat count r = (some n, r')) :
    n < Nat.pow 256 count ∧ r.Passes r' (word count) (bytesOfNat count n) := by
  obtain ⟨found, mid, hfound, h⟩ := bind_eq_some h
  cases h
  obtain ⟨rfl, hrest, hposition⟩ := bytes_eq_some hfound
  refine ⟨natOfBytes_lt found, found, hrest, hposition, ?_⟩
  rw [bytesOfNat_natOfBytes]
  exact .word found

theorem byte_eq_some {n : Nat} (h : byte r = (some n, r')) :
    ∃ b : UInt8, n = b.toNat ∧ r.rest = b :: r'.rest ∧ r'.position = r.position + 1 := by
  obtain ⟨found, mid, hfound, h⟩ := bind_eq_some h
  cases h
  obtain ⟨hlength, hrest, hposition⟩ := bytes_eq_some hfound
  obtain ⟨b, rfl⟩ := List.length_eq_one_iff.mp hlength
  exact ⟨b, by simp [natOfBytes], hrest, hposition⟩

theorem passes_word32 {w : UInt32} (h : word32 r = (some w, r')) : r.Passes r' (word 4) (Repaint.word32 w) := by
  obtain ⟨n, mid, hn, h⟩ := bind_eq_some h
  cases h
  obtain ⟨hlt, hpasses⟩ := passes_nat hn
  rwa [Repaint.word32, UInt32.toNat_ofNat_of_lt' hlt]

theorem passes_word64 {w : UInt64} (h : word64 r = (some w, r')) : r.Passes r' (word 8) (Repaint.word64 w) := by
  obtain ⟨n, mid, hn, h⟩ := bind_eq_some h
  cases h
  obtain ⟨hlt, hpasses⟩ := passes_nat hn
  rwa [Repaint.word64, UInt64.toNat_ofNat_of_lt' hlt]

theorem passes_flag {f : Bool} (h : flag r = (some f, r')) : r.Passes r' [.flag] [flagByte f] := by
  obtain ⟨n, mid, hn, h⟩ := bind_eq_some h
  cases h
  obtain ⟨b, rfl, hrest, hposition⟩ := byte_eq_some hn
  exact ⟨[b], hrest, hposition, .flag b⟩

theorem passes_phase {p : Phase} (h : phase r = (some p, r')) : r.Passes r' [.phase] [p.byte] := by
  obtain ⟨n, mid, hn, h⟩ := bind_eq_some h
  obtain ⟨b, hb, hrest, hposition⟩ := byte_eq_some hn
  suffices hbyte : mid = r' ∧ p.byte = ByteRole.settle .phase b by
    obtain ⟨rfl, hbyte⟩ := hbyte
    exact ⟨[b], hrest, hposition, rfl, congrArg (fun b => [b]) hbyte⟩
  split at h
  · cases h
    obtain rfl : b = 0 := UInt8.toNat_inj.mp hb.symm
    exact ⟨rfl, rfl⟩
  · cases h
    obtain rfl : b = 1 := UInt8.toNat_inj.mp hb.symm
    exact ⟨rfl, rfl⟩
  · rename_i hzero hone
    cases h
    refine ⟨rfl, ?_⟩
    have hlarge : 2 ≤ b.toNat := by
      have hzero : n ≠ 0 := hzero
      have hone : n ≠ 1 := hone
      omega
    show 2 = if 2 < b then 2 else b
    split
    · rfl
    · rename_i hsmall
      exact UInt8.le_antisymm hlarge (UInt8.not_lt.mp hsmall)

theorem passes_phaseMark {m : PhaseMark} (h : phaseMark r = (some m, r')) : r.Passes r' PhaseMark.roles m.bytes := by
  obtain ⟨frame, r₁, hframe, h⟩ := bind_eq_some h
  obtain ⟨phase, r₂, hphase, h⟩ := bind_eq_some h
  obtain ⟨time, r₃, htime, h⟩ := bind_eq_some h
  cases h
  exact (passes_word64 hframe).trans ((passes_phase hphase).trans (passes_word64 htime))

theorem passes_pushEvent {e : PushEvent} (h : pushEvent r = (some e, r')) :
    r.Passes r' (word 8 ++ (word 8 ++ (word 4 ++ (word 4 ++ (word 4 ++ (word 4 ++ word 4))))))
      (Repaint.word64 e.frame ++ (Repaint.word64 e.generation ++ (Repaint.word32 e.candidates ++
        (Repaint.word32 e.layers ++ (Repaint.word32 e.newLayers ++ (Repaint.word32 e.removed ++
          Repaint.word32 e.capacity)))))) := by
  obtain ⟨frame, r₁, hframe, h⟩ := bind_eq_some h
  obtain ⟨generation, r₂, hgeneration, h⟩ := bind_eq_some h
  obtain ⟨candidates, r₃, hcandidates, h⟩ := bind_eq_some h
  obtain ⟨layers, r₄, hlayers, h⟩ := bind_eq_some h
  obtain ⟨newLayers, r₅, hnew, h⟩ := bind_eq_some h
  obtain ⟨removed, r₆, hremoved, h⟩ := bind_eq_some h
  obtain ⟨capacity, r₇, hcapacity, h⟩ := bind_eq_some h
  cases h
  exact (passes_word64 hframe).trans ((passes_word64 hgeneration).trans ((passes_word32 hcandidates).trans
    ((passes_word32 hlayers).trans ((passes_word32 hnew).trans ((passes_word32 hremoved).trans
      (passes_word32 hcapacity))))))

theorem passes_occlusionEvent {e : OcclusionEvent} (h : occlusionEvent r = (some e, r')) :
    r.Passes r' (word 8 ++ (word 4 ++ (word 4 ++ word 4)))
      (Repaint.word64 e.frame ++ (Repaint.word32 e.visited ++ (Repaint.word32 e.culled ++
        Repaint.word32 e.occluders))) := by
  obtain ⟨frame, r₁, hframe, h⟩ := bind_eq_some h
  obtain ⟨visited, r₂, hvisited, h⟩ := bind_eq_some h
  obtain ⟨culled, r₃, hculled, h⟩ := bind_eq_some h
  obtain ⟨occluders, r₄, hoccluders, h⟩ := bind_eq_some h
  cases h
  exact (passes_word64 hframe).trans ((passes_word32 hvisited).trans ((passes_word32 hculled).trans
    (passes_word32 hoccluders)))

theorem passes_damageEvent {e : DamageEvent} (h : damageEvent r = (some e, r')) :
    r.Passes r' (word 8 ++ (word 4 ++ .flag :: word 4))
      (Repaint.word64 e.frame ++ (Repaint.word32 e.age ++ flagByte e.full :: Repaint.word32 e.rects)) := by
  obtain ⟨frame, r₁, hframe, h⟩ := bind_eq_some h
  obtain ⟨age, r₂, hage, h⟩ := bind_eq_some h
  obtain ⟨full, r₃, hfull, h⟩ := bind_eq_some h
  obtain ⟨rects, r₄, hrects, h⟩ := bind_eq_some h
  cases h
  exact (passes_word64 hframe).trans ((passes_word32 hage).trans ((passes_flag hfull).trans (passes_word32 hrects)))

theorem passes_summaryFields {s : Summary} (h : summaryFields r = (some s, r')) :
    r.Passes r' (word 8 ++ (word 8 ++ (word 4 ++ (word 4 ++ (word 4 ++ (word 4 ++ .flag :: (word 4 ++
      (word 8 ++ (word 8 ++ word 8)))))))))
      (Repaint.word64 s.frame ++ (Repaint.word64 s.generation ++ (Repaint.word32 s.layers ++
        (Repaint.word32 s.newLayers ++ (Repaint.word32 s.removed ++ (Repaint.word32 s.culled ++
          flagByte s.damageFull :: (Repaint.word32 s.damageRects ++ (Repaint.word64 s.appendTime ++
            (Repaint.word64 s.occlusionTime ++ Repaint.word64 s.damageTime))))))))) := by
  obtain ⟨frame, r₁, hframe, h⟩ := bind_eq_some h
  obtain ⟨generation, r₂, hgeneration, h⟩ := bind_eq_some h
  obtain ⟨layers, r₃, hlayers, h⟩ := bind_eq_some h
  obtain ⟨newLayers, r₄, hnew, h⟩ := bind_eq_some h
  obtain ⟨removed, r₅, hremoved, h⟩ := bind_eq_some h
  obtain ⟨culled, r₆, hculled, h⟩ := bind_eq_some h
  obtain ⟨full, r₇, hfull, h⟩ := bind_eq_some h
  obtain ⟨rects, r₈, hrects, h⟩ := bind_eq_some h
  obtain ⟨appendTime, r₉, happend, h⟩ := bind_eq_some h
  obtain ⟨occlusionTime, r₁₀, hocclusion, h⟩ := bind_eq_some h
  obtain ⟨damageTime, r₁₁, hdamage, h⟩ := bind_eq_some h
  cases h
  exact (passes_word64 hframe).trans ((passes_word64 hgeneration).trans ((passes_word32 hlayers).trans
    ((passes_word32 hnew).trans ((passes_word32 hremoved).trans ((passes_word32 hculled).trans
      ((passes_flag hfull).trans ((passes_word32 hrects).trans ((passes_word64 happend).trans
        ((passes_word64 hocclusion).trans (passes_word64 hdamage))))))))))

/-- The tag is recorded as it was found. -/
theorem passes_tag {tag : Nat} (h : byte r = (some tag, r')) : r.Passes r' [.plain] [UInt8.ofNat tag] := by
  obtain ⟨b, rfl, hrest, hposition⟩ := byte_eq_some h
  exact ⟨[b], hrest, hposition, rfl, by rw [UInt8.ofNat_toNat]; rfl⟩

/-- The bytes that a record is read from settle to those that it is recorded in. -/
theorem passes_record {x : Record} (h : record r = (some x, r')) : r.Passes r' x.roles x.bytes := by
  obtain ⟨tag, mid, htag, h⟩ := bind_eq_some h
  have hpasses := passes_tag htag
  split at h
  · obtain ⟨e, end', he, h⟩ := bind_eq_some h
    cases h
    simp only [Record.roles, Record.bytes, List.append_assoc]
    exact hpasses.trans (passes_pushEvent he)
  · obtain ⟨e, end', he, h⟩ := bind_eq_some h
    cases h
    simp only [Record.roles, Record.bytes, List.append_assoc]
    exact hpasses.trans (passes_occlusionEvent he)
  · obtain ⟨e, end', he, h⟩ := bind_eq_some h
    cases h
    simp only [Record.roles, Record.bytes, List.append_assoc]
    exact hpasses.trans (passes_damageEvent he)
  · obtain ⟨m, end', hm, h⟩ := bind_eq_some h
    cases h
    exact hpasses.trans (passes_phaseMark hm)
  · obtain ⟨m, end', hm, h⟩ := bind_eq_some h
    cases h
    exact hpasses.trans (passes_phaseMark hm)
  · obtain ⟨s, end', hs, h⟩ := bind_eq_some h
    cases h
    simp only [Record.roles, Record.bytes, List.append_assoc, List.cons_append]
    exact hpasses.trans (passes_summaryFields hs)
  · obtain ⟨frame, r₁, hframe, h⟩ := bind_eq_some h
    obtain ⟨count, r₂, hcount, h⟩ := bind_eq_some h
    cases h
    exact hpasses.trans ((passes_word64 hframe).trans (passes_word32 hcount))
  · obtain ⟨frame, r₁, hframe, h⟩ := bind_eq_some h
    obtain ⟨count, r₂, hcount, h⟩ := bind_eq_some h
    cases h
    exact hpasses.trans ((passes_word64 hframe).trans (passes_word32 hcount))
  · cases h

end Read

/-! ## Reading on -/

/-- A record has a tag. -/
theorem Record.length_bytes_pos (x : Record) : 0 < x.bytes.length := by
  cases x <;> exact Nat.succ_pos _

namespace Reader

/-- The place of the reader after so many calls. -/
def after : Nat → Reader → Reader
  | 0, r => r
  | calls + 1, r => after calls r.next.2

theorem passes_next {r r' : Reader} {x : Record} (h : r.next = (some x, r')) : r.Passes r' x.roles x.bytes :=
  Read.passes_record h

/-- Reading on passes the bytes of the records that are found, one record after the other, up to a place where there is
none. -/
theorem passes_records {count : Nat} {r : Reader} (h : r.rest.length ≤ count) :
    r.Passes (r.after (r.records count).length) ((r.records count).flatMap Record.roles)
        ((r.records count).flatMap Record.bytes) ∧
      r.poll ((r.records count).length + 1) = (r.records count).map some ++ [none] := by
  induction count generalizing r with
  | zero =>
    obtain ⟨position, rest⟩ := r
    obtain rfl : rest = [] := List.length_eq_zero_iff.mp (Nat.le_zero.mp h)
    exact ⟨.refl _, rfl⟩
  | succ count ih =>
    cases hnext : r.next with
    | mk result r' =>
      cases result with
      | none =>
        simp only [records, hnext]
        exact ⟨.refl r, by simp [poll, hnext]⟩
      | some x =>
        -- the record takes bytes, so fewer are left for those behind it
        have hpasses := passes_next hnext
        have hleft := hpasses.length_rest
        have hpos := x.length_bytes_pos
        obtain ⟨hrest, hpoll⟩ := ih (show r'.rest.length ≤ count by omega)
        simp only [records, hnext, List.length_cons, after, poll, List.flatMap_cons, List.map_cons]
        refine ⟨hpasses.trans hrest, ?_⟩
        rw [poll] at hpoll
        rw [hpoll, List.cons_append]

end Reader

/-- The records of a recording are passed from its start on. -/
theorem passes_decode (bytes : List UInt8) :
    (Reader.start bytes).Passes ((Reader.start bytes).after (decode bytes).length)
        ((decode bytes).flatMap Record.roles) ((decode bytes).flatMap Record.bytes) ∧
      (Reader.start bytes).poll ((decode bytes).length + 1) = (decode bytes).map some ++ [none] :=
  Reader.passes_records (Nat.le_refl bytes.length)

/-! ## Recording again -/

/-- An event of which the record tells. Where it tells a number only, there are so many blank links or rectangles. -/
def Record.retold : Record → Event
  | .push e => .push e
  | .occlusion e => .occlusion e
  | .damage e => .damage e
  | .phaseBegin m => .phaseBegin m
  | .phaseEnd m => .phaseEnd m
  | .summary s => .summary s
  | .linkCount frame count => .links frame (List.replicate count.toNat default)
  | .rectCount frame count => .rects frame (List.replicate count.toNat default)

theorem toNat_eq_min_length {α : Type} (count : UInt32) (a : α) :
    count.toNat = min (List.replicate count.toNat a).length (pow2 32 - 1) := by
  have hlt : count.toNat < pow2 32 := count.toNat_lt
  rw [List.length_replicate]
  omega

theorem Record.recorded_retold (x : Record) : Event.Recorded x.retold x := by
  cases x with
  | push e => exact .push e
  | occlusion e => exact .occlusion e
  | damage e => exact .damage e
  | phaseBegin m => exact .phaseBegin m
  | phaseEnd m => exact .phaseEnd m
  | summary s => exact .summary s
  | linkCount frame count => exact .links frame _ count (toNat_eq_min_length count default)
  | rectCount frame count => exact .rects frame _ count (toNat_eq_min_length count default)

theorem cappedCount_eq {length : Nat} {count : UInt32} (h : count.toNat = min length (pow2 32 - 1)) :
    cappedCount length = count :=
  UInt32.toNat_inj.mp ((toNat_cappedCount length).trans h.symm)

/-- An event is recorded in the record that tells of it. -/
theorem Event.Recorded.record_eq {e : Event} {x : Record} (h : e.Recorded x) : e.record = x := by
  cases h with
  | links frame told count hcount => exact congrArg (Record.linkCount frame) (cappedCount_eq hcount)
  | rects frame told count hcount => exact congrArg (Record.rectCount frame) (cappedCount_eq hcount)
  | _ => rfl

theorem recording_of_recorded {events : List Event} {records : List Record}
    (h : List.Forall₂ Event.Recorded events records) : recording events = records.flatMap Record.bytes := by
  have hrecords : events.map Event.record = records := by
    rw [← List.forall₂_eq_eq_eq, List.forall₂_map_left_iff]
    exact h.imp fun _ _ hrecorded => hrecorded.record_eq
  rw [recording_eq_flatMap, hrecords]

/-- **Recording what was read settles the bytes.** Of any bytes the records up to the first place where there is none
are read. There are events of which they tell, and all such events are recorded in the same bytes, as many as the
reader has passed. These are the bytes that it has passed, with each set flag as one and each phase beyond the last as
the last, and the same records are read of them. What a recorder has written is thus recorded as it was. -/
theorem emitAll_decode (bytes : List UInt8) :
    ∃ again,
      (Reader.start bytes).poll ((decode bytes).length + 1) = (decode bytes).map some ++ [none] ∧
      ((Reader.start bytes).after (decode bytes).length).position = again.length ∧
      (∃ events, List.Forall₂ Event.Recorded events (decode bytes)) ∧
      (∀ events, List.Forall₂ Event.Recorded events (decode bytes) →
        (Tracer.emitAll ⟨some (.recorder [])⟩ events).sink = some (.recorder again)) ∧
      decode again = decode bytes ∧
      Settles ((decode bytes).flatMap Record.roles) (bytes.take again.length) again ∧
      ∀ events, (Tracer.emitAll ⟨some (.recorder [])⟩ events).sink = some (.recorder bytes) → again = bytes := by
  obtain ⟨hpasses, hpoll⟩ := passes_decode bytes
  refine ⟨(decode bytes).flatMap Record.bytes, hpoll, ?_, ?_, fun events hevents => ?_, decode_flatMap _, ?_,
    fun events hevents => ?_⟩
  · have hposition := hpasses.position_eq
    rwa [show (Reader.start bytes).position = 0 from rfl, Nat.zero_add] at hposition
  · refine ⟨(decode bytes).map Record.retold, ?_⟩
    rw [List.forall₂_map_left_iff, List.forall₂_same]
    exact fun x _ => x.recorded_retold
  · rw [Tracer.emitAll_recorder, List.nil_append, recording_of_recorded hevents]
  · obtain ⟨found, hrest, _, hsettles⟩ := hpasses
    have htake : bytes.take found.length = found := by
      rw [show bytes = found ++ _ from hrest]
      exact List.take_left
    rw [hsettles.length_recorded, htake]
    exact hsettles
  · rw [Tracer.emitAll_recorder, List.nil_append] at hevents
    have hbytes : recording events = bytes := by simpa using hevents
    rw [← hbytes, decode_recording, recording_eq_flatMap]

/-- A flag of seven is recorded as one, and what stands behind the record is no record. -/
example : (decode (3 :: List.replicate 12 0 ++ 7 :: List.replicate 4 0 ++ [9, 1, 1])).flatMap Record.bytes =
    3 :: List.replicate 12 0 ++ 1 :: List.replicate 4 0 := rfl

end Repaint
