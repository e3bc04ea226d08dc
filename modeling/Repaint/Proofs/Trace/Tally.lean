import Repaint.Trace.Tally
import Mathlib.Data.List.Induction

/-!
# Only the last note of each kind counts

There are eight kinds of notes: each phase begins and ends, the layers were marked, the damage was collected. A tally
keeps one note of each kind, and a new note replaces the one of its kind and no other (`Tally.kept_note`). So after any
notes, in any order, it keeps the last of each kind (`Tally.kept_eq_some_iff`), and the summary of the frame tells of
these and of nothing else (`summary_of_notes`).
-/

namespace Repaint

/-! ## Last notes -/

/-- What a note is about. -/
inductive NoteKind where
  | began (phase : Phase)
  | ended (phase : Phase)
  | occlusion
  | damage
deriving DecidableEq

/-- The kind of a note. -/
def Note.kind : Note → NoteKind
  | .began phase _ => .began phase
  | .ended phase _ => .ended phase
  | .occlusion _ => .occlusion
  | .damage _ => .damage

/-- The note was made, and none of its kind after it. -/
def Note.LastIn (note : Note) (notes : List Note) : Prop :=
  ∃ before after, notes = before ++ note :: after ∧ ∀ later ∈ after, later.kind ≠ note.kind

/-- No note of the kind was made. -/
def NoteKind.MissingFrom (kind : NoteKind) (notes : List Note) : Prop := ∀ note ∈ notes, note.kind ≠ kind

variable {note latest : Note} {notes : List Note} {kind : NoteKind} {push : PushEvent}

theorem Note.not_lastIn_nil : ¬ note.LastIn [] := by
  rintro ⟨before, after, h, _⟩
  simp at h

/-- A further note is the last of its kind, and leaves the other kinds as they were. -/
theorem Note.lastIn_concat :
    note.LastIn (notes ++ [latest]) ↔ note = latest ∨ (latest.kind ≠ note.kind ∧ note.LastIn notes) := by
  constructor
  · rintro ⟨before, after, h, hafter⟩
    rcases List.eq_nil_or_concat after with rfl | ⟨after, last, rfl⟩
    · exact .inl (List.cons.inj (List.append_inj' h rfl).2).1.symm
    · rw [List.concat_eq_append] at h hafter
      rw [← List.cons_append, ← List.append_assoc] at h
      obtain ⟨rfl, hlast⟩ := List.append_inj' h rfl
      obtain rfl := (List.cons.inj hlast).1
      refine .inr ⟨hafter _ (by simp), before, after, rfl, fun later hlater => ?_⟩
      exact hafter later (List.mem_append_left _ hlater)
  · rintro (rfl | ⟨hkind, before, after, rfl, hafter⟩)
    · exact ⟨notes, [], rfl, by simp⟩
    · refine ⟨before, after ++ [latest], by simp, fun later hlater => ?_⟩
      rcases List.mem_append.mp hlater with hlater | hlater
      · exact hafter later hlater
      · rw [List.mem_singleton.mp hlater]
        exact hkind

theorem NoteKind.missingFrom_concat :
    kind.MissingFrom (notes ++ [latest]) ↔ latest.kind ≠ kind ∧ kind.MissingFrom notes := by
  simp [MissingFrom, or_imp, forall_and, and_comm]

theorem Note.began_injective (phase : Phase) : Function.Injective (Note.began phase) :=
  fun _ _ h => (Note.began.inj h).2

theorem Note.ended_injective (phase : Phase) : Function.Injective (Note.ended phase) :=
  fun _ _ h => (Note.ended.inj h).2

theorem Note.occlusion_injective : Function.Injective Note.occlusion := fun _ _ h => Note.occlusion.inj h

theorem Note.damage_injective : Function.Injective Note.damage := fun _ _ h => Note.damage.inj h

/-! ## What a tally keeps -/

namespace Tally

variable {t t' : Tally}

/-- The note of a kind that a tally keeps. -/
def kept (t : Tally) : NoteKind → Option Note
  | .began phase => (t.begins phase).map (.began phase)
  | .ended phase => (t.ends phase).map (.ended phase)
  | .occlusion => t.occlusion.map .occlusion
  | .damage => t.damage.map .damage

/-- A note replaces the one of its kind, and no other. -/
theorem kept_note (t : Tally) (note : Note) (kind : NoteKind) :
    (t.note note).kept kind = if note.kind = kind then some note else t.kept kind := by
  cases note with
  | began phase time =>
    cases kind with
    | began p =>
      by_cases hp : phase = p
      · subst hp
        simp [Tally.note, kept, Note.kind]
      · simp [Tally.note, kept, Note.kind, hp, Ne.symm hp]
    | ended p => rfl
    | occlusion => rfl
    | damage => rfl
  | ended phase time =>
    cases kind with
    | began p => rfl
    | ended p =>
      by_cases hp : phase = p
      · subst hp
        simp [Tally.note, kept, Note.kind]
      · simp [Tally.note, kept, Note.kind, hp, Ne.symm hp]
    | occlusion => rfl
    | damage => rfl
  | occlusion event => cases kind <;> rfl
  | damage event => cases kind <;> rfl

theorem push_note (t : Tally) (note : Note) : (t.note note).push = t.push := by
  cases note <;> rfl

/-- Two tallies of one push that keep the same notes are the same. -/
theorem eq_of_kept (hpush : t.push = t'.push) (hkept : ∀ kind, t.kept kind = t'.kept kind) : t = t' := by
  have hbegins : t.begins = t'.begins := by
    funext phase
    exact Option.map_injective (Note.began_injective phase) (hkept (.began phase))
  have hends : t.ends = t'.ends := by
    funext phase
    exact Option.map_injective (Note.ended_injective phase) (hkept (.ended phase))
  have hocclusion : t.occlusion = t'.occlusion := Option.map_injective Note.occlusion_injective (hkept .occlusion)
  have hdamage : t.damage = t'.damage := Option.map_injective Note.damage_injective (hkept .damage)
  cases t
  cases t'
  congr

/-- The tally of a push after some notes. -/
def ofNotes (push : PushEvent) (notes : List Note) : Tally := notes.foldl Tally.note { push }

theorem ofNotes_concat (push : PushEvent) (notes : List Note) (latest : Note) :
    ofNotes push (notes ++ [latest]) = (ofNotes push notes).note latest := by
  rw [ofNotes, List.foldl_append]
  rfl

theorem push_ofNotes (push : PushEvent) (notes : List Note) : (ofNotes push notes).push = push := by
  induction notes using List.reverseRecOn with
  | nil => rfl
  | append_singleton notes latest ih => rw [ofNotes_concat, push_note, ih]

/-- A tally keeps the last note of each kind. -/
theorem kept_eq_some_iff : (ofNotes push notes).kept kind = some note ↔ note.kind = kind ∧ note.LastIn notes := by
  induction notes using List.reverseRecOn with
  | nil =>
    have hnone : (ofNotes push []).kept kind = none := by
      cases kind <;> rfl
    simp [hnone, Note.not_lastIn_nil]
  | append_singleton notes latest ih =>
    rw [ofNotes_concat, kept_note, Note.lastIn_concat]
    by_cases h : latest.kind = kind
    · rw [if_pos h, Option.some_inj]
      constructor
      · rintro rfl
        exact ⟨h, .inl rfl⟩
      · rintro ⟨hkind, rfl | ⟨hother, _⟩⟩
        · rfl
        · exact absurd (h.trans hkind.symm) hother
    · rw [if_neg h, ih]
      constructor
      · rintro ⟨rfl, hlast⟩
        exact ⟨rfl, .inr ⟨h, hlast⟩⟩
      · rintro ⟨hkind, rfl | ⟨_, hlast⟩⟩
        · exact absurd hkind h
        · exact ⟨hkind, hlast⟩

/-- Where a tally keeps no note, none was made. -/
theorem kept_eq_none_iff : (ofNotes push notes).kept kind = none ↔ kind.MissingFrom notes := by
  induction notes using List.reverseRecOn with
  | nil => cases kind <;> simp [NoteKind.MissingFrom, ofNotes, kept]
  | append_singleton notes latest ih =>
    rw [ofNotes_concat, kept_note, NoteKind.missingFrom_concat, ← ih]
    by_cases h : latest.kind = kind <;> simp [h]

/-- A slot of the tally holds what the last note of its kind tells. -/
theorem slot_eq_some {α : Type} {slot : Option α} {tells : α → Note} {a : α} (hinj : Function.Injective tells)
    (hslot : (ofNotes push notes).kept (tells a).kind = slot.map tells) (h : (tells a).LastIn notes) : slot = some a := by
  have hkept : slot.map tells = (some a).map tells := hslot.symm.trans (kept_eq_some_iff.mpr ⟨rfl, h⟩)
  exact Option.map_injective hinj hkept

theorem slot_eq_none {α : Type} {slot : Option α} {tells : α → Note}
    (hslot : (ofNotes push notes).kept kind = slot.map tells) (h : kind.MissingFrom notes) : slot = none :=
  Option.map_eq_none_iff.mp (hslot.symm.trans (kept_eq_none_iff.mpr h))

/-- A phase lasted from its begin to its end, and no time if it ended before it began. -/
theorem toNat_duration {t : Tally} {phase : Phase} {start stop : UInt64} (hstart : t.begins phase = some start)
    (hstop : t.ends phase = some stop) : (t.duration phase).toNat = stop.toNat - start.toNat := by
  simp only [duration, hstart, hstop]
  split
  · next hle => exact UInt64.toNat_sub_of_le _ _ hle
  · next hlt =>
    have hlt : stop.toNat < start.toNat := UInt64.lt_iff_toNat_lt.mp (UInt64.not_le.mp hlt)
    rw [Nat.sub_eq_zero_of_le (Nat.le_of_lt hlt)]
    rfl

theorem duration_of_missing {t : Tally} {phase : Phase} (h : t.begins phase = none ∨ t.ends phase = none) :
    t.duration phase = 0 := by
  rcases h with h | h
  · rw [duration, h]
  · rw [duration, h]
    cases t.begins phase <;> rfl

end Tally

/-! ## What a summary tells -/

/-- How long a phase lasted. -/
def Summary.time (s : Summary) : Phase → UInt64
  | .append => s.appendTime
  | .occlusion => s.occlusionTime
  | .damage => s.damageTime

/-- The summary tells of the push and of the last note of each kind; what was not noted is zero. -/
structure Summary.SumsUp (push : PushEvent) (notes : List Note) (s : Summary) : Prop where
  frame : s.frame = push.frame
  generation : s.generation = push.generation
  layers : s.layers = push.layers
  newLayers : s.newLayers = push.newLayers
  removed : s.removed = push.removed
  culled : ∀ e, (Note.occlusion e).LastIn notes → s.culled = e.culled
  culled_of_missing : NoteKind.occlusion.MissingFrom notes → s.culled = 0
  damage : ∀ e, (Note.damage e).LastIn notes → s.damageFull = e.full ∧ s.damageRects = e.rects
  damage_of_missing : NoteKind.damage.MissingFrom notes → s.damageFull = false ∧ s.damageRects = 0
  /-- The difference of the times is that of natural numbers, so it ends at zero. -/
  time : ∀ phase start stop, (Note.began phase start).LastIn notes → (Note.ended phase stop).LastIn notes →
    (s.time phase).toNat = stop.toNat - start.toNat
  time_of_missing : ∀ phase, (NoteKind.began phase).MissingFrom notes ∨ (NoteKind.ended phase).MissingFrom notes →
    s.time phase = 0

namespace Tally

theorem time_summary (t : Tally) (phase : Phase) : t.summary.time phase = t.duration phase := by
  cases phase <;> rfl

theorem sumsUp_summary (push : PushEvent) (notes : List Note) : (ofNotes push notes).summary.SumsUp push notes where
  frame := congrArg PushEvent.frame (push_ofNotes push notes)
  generation := congrArg PushEvent.generation (push_ofNotes push notes)
  layers := congrArg PushEvent.layers (push_ofNotes push notes)
  newLayers := congrArg PushEvent.newLayers (push_ofNotes push notes)
  removed := congrArg PushEvent.removed (push_ofNotes push notes)
  culled e h := by
    have hlast : (ofNotes push notes).occlusion = some e := slot_eq_some Note.occlusion_injective rfl h
    rw [summary, hlast]
    rfl
  culled_of_missing h := by
    have hnone : (ofNotes push notes).occlusion = none := slot_eq_none rfl h
    rw [summary, hnone]
    rfl
  damage e h := by
    have hlast : (ofNotes push notes).damage = some e := slot_eq_some Note.damage_injective rfl h
    rw [summary, hlast]
    exact ⟨rfl, rfl⟩
  damage_of_missing h := by
    have hnone : (ofNotes push notes).damage = none := slot_eq_none rfl h
    rw [summary, hnone]
    exact ⟨rfl, rfl⟩
  time phase start stop hstart hstop := by
    have hbegin : (ofNotes push notes).begins phase = some start := slot_eq_some (Note.began_injective phase) rfl hstart
    have hend : (ofNotes push notes).ends phase = some stop := slot_eq_some (Note.ended_injective phase) rfl hstop
    rw [time_summary, toNat_duration hbegin hend]
  time_of_missing phase h := by
    rw [time_summary]
    exact duration_of_missing (h.imp (slot_eq_none rfl) (slot_eq_none rfl))

/-- **A summary depends on the last note of each kind alone.** After any notes of a push, in any order, the summary has
the counts of the push and those of the last marking and the last damage query, and each phase lasted from its last
begin to its last end, or no time. So notes with the same last ones of all kinds have the same summary. -/
theorem summary_of_notes (push : PushEvent) (notes : List Note) :
    (notes.foldl Tally.note { push }).summary.SumsUp push notes ∧
      ∀ notes' : List Note, (∀ note : Note, note.LastIn notes' ↔ note.LastIn notes) →
        (notes'.foldl Tally.note { push }).summary = (notes.foldl Tally.note { push }).summary := by
  refine ⟨sumsUp_summary push notes, fun notes' hsame => ?_⟩
  have hpush : (ofNotes push notes').push = (ofNotes push notes).push := by
    rw [push_ofNotes, push_ofNotes]
  have hkept : ∀ kind, (ofNotes push notes').kept kind = (ofNotes push notes).kept kind := by
    intro kind
    refine Option.ext fun note => ?_
    rw [kept_eq_some_iff, kept_eq_some_iff, hsame]
  exact congrArg summary (eq_of_kept hpush hkept)

end Tally

end Repaint
