import Repaint.Proofs.Trace.Recording
import Repaint.Proofs.Trace.Words

/-!
# Lines tell what was recorded

Events may be printed and recorded at once. The text and the bytes are then read by two readers that know nothing of
each other, and they find the same (`lines_tell_records`): a line and a record for each event, and in each line the
label of its record, the number of its frame, and under each name the number that the record holds.

* **words** — what a line says of each kind of event, and what of it a record holds (`Record.SaidBy`);
* **lines** — the line of an event is made of these words, and they are read back (`Event.line_eq`,
  `Event.wordsOf_line`): no number, time or name has a sign in it that lines are split at (`Event.plain_words`).
-/

namespace Repaint

/-! ## What a line says -/

/-- How a line says whether all or a part of the screen is repainted. -/
def extentText (full : Bool) : String := if full then "FULL" else "partial"

/-- How a line says a time, in microseconds. -/
def timeText (nanoseconds : UInt64) : String := (microseconds nanoseconds).tenths ++ "µs"

/-- What a line says of a push. -/
def PushEvent.words (e : PushEvent) : List Word :=
  [.count "gen" e.generation.toNat, ⟨"layers", [.number e.layers.toNat, .number e.candidates.toNat]⟩,
    .count "new" e.newLayers.toNat, .count "removed" e.removed.toNat, .count "capacity" e.capacity.toNat]

/-- What a line says of an occlusion marking. -/
def OcclusionEvent.words (e : OcclusionEvent) : List Word :=
  [.count "visited" e.visited.toNat, .count "culled" e.culled.toNat, .count "opaque" e.occluders.toNat]

/-- What a line says of a damage query. -/
def DamageEvent.words (e : DamageEvent) : List Word :=
  [.count "age" e.age.toNat, ⟨extentText e.full, []⟩, .count "rects" e.rects.toNat]

/-- What a line says of a phase mark. -/
def PhaseMark.words (m : PhaseMark) : List Word := [⟨m.phase.name, []⟩, ⟨"at", []⟩, ⟨timeText m.time, []⟩]

/-- What a line says of a summary. -/
def Summary.words (s : Summary) : List Word :=
  [.count "layers" s.layers.toNat, .count "new" s.newLayers.toNat, .count "removed" s.removed.toNat,
    .count "culled" s.culled.toNat, ⟨"damage", [.text (extentText s.damageFull), .number s.damageRects.toNat]⟩,
    ⟨"append", [.text (timeText s.appendTime)]⟩, ⟨"occlusion", [.text (timeText s.occlusionTime)]⟩,
    ⟨"damage", [.text (timeText s.damageTime)]⟩]

namespace Record

/-- The label of a record's kind. -/
def label : Record → String
  | .push _ => "[append]"
  | .occlusion _ => "[occlusion]"
  | .damage _ => "[damage]"
  | .phaseBegin _ => "[phase:begin]"
  | .phaseEnd _ => "[phase:end]"
  | .summary _ => "[summary]"
  | .linkCount _ _ => "[links]"
  | .rectCount _ _ => "[damage:rects]"

/-- The frame that a record is of. -/
def frame : Record → UInt64
  | .push e => e.frame
  | .occlusion e => e.frame
  | .damage e => e.frame
  | .phaseBegin m => m.frame
  | .phaseEnd m => m.frame
  | .summary s => s.frame
  | .linkCount frame _ => frame
  | .rectCount frame _ => frame

/-- The words behind label and frame say what the record holds. A line also says how many layers are linked, which is
not recorded. -/
def SaidBy (words : List Word) : Record → Prop
  | .push e => words = e.words
  | .occlusion e => words = e.words
  | .damage e => words = e.words
  | .phaseBegin m => words = m.words
  | .phaseEnd m => words = m.words
  | .summary s => words = s.words
  | .linkCount _ count => ∃ linked, words = [.count "layers" count.toNat, .count "linked" linked]
  | .rectCount _ count => words = [.count "rects" count.toNat]

end Record

/-- Whether the links or rectangles of the event are few enough for a 32-bit count. -/
def Event.Countable : Event → Prop
  | .links _ told => told.length < pow2 32
  | .rects _ told => told.length < pow2 32
  | _ => True

/-! ## Lines are made of words -/

namespace Piece

@[simp] theorem text_words (s : String) : (words s).text = s := rfl

@[simp] theorem toList_number (n : Nat) : (number n).text.toList = Nat.toDigits 10 n := by
  rw [text, Nat.toString_eq_repr, Nat.toList_repr]

@[simp] theorem toList_word32 (w : UInt32) : (word32 w).text.toList = Nat.toDigits 10 w.toNat := toList_number _

@[simp] theorem toList_word64 (w : UInt64) : (word64 w).text.toList = Nat.toDigits 10 w.toNat := toList_number _

@[simp] theorem text_extent (full : Bool) : (extent full).text = extentText full := rfl

@[simp] theorem text_phase (p : Phase) : (phase p).text = p.name := rfl

end Piece

namespace Event

/-- What the line of an event says, behind its label and its frame. -/
def details : Event → List Word
  | .push e => e.words
  | .occlusion e => e.words
  | .damage e => e.words
  | .phaseBegin m => m.words
  | .phaseEnd m => m.words
  | .summary s => s.words
  | .links _ told => [.count "layers" told.length, .count "linked" (told.countP (fun link => link.prevRank.isSome))]
  | .rects _ told => [.count "rects" told.length]

/-- The words of an event's line. -/
def words (e : Event) : List Word := ⟨e.record.label, []⟩ :: .count "frame" e.record.frame.toNat :: e.details

/-- The line of an event is made of its words. -/
theorem line_eq (e : Event) : e.line.toList = lineOf e.words ++ ['\n'] := by
  have htime : ∀ t, (Piece.time t).text = timeText t := fun t => by rw [Piece.text, timeText]
  -- the text of a time may be any text here: the rounding behind it is not to be unfolded
  obtain ⟨text, htext⟩ : ∃ text, timeText = text := ⟨_, rfl⟩
  rw [htext] at htime
  rw [line, words, String.toList_append, String.toList_join, List.flatMap_map, lineOf_cons]
  cases e with
  | push e => simp [pieces, details, PushEvent.words, record, Record.label, Record.frame, Value.chars]
  | occlusion e => simp [pieces, details, OcclusionEvent.words, record, Record.label, Record.frame]
  | damage e => simp [pieces, details, DamageEvent.words, record, Record.label, Record.frame]
  | phaseBegin m =>
    simp [pieces, PhaseMark.pieces, details, PhaseMark.words, record, Record.label, Record.frame, htime, htext]
  | phaseEnd m =>
    simp [pieces, PhaseMark.pieces, details, PhaseMark.words, record, Record.label, Record.frame, htime, htext]
  | summary s =>
    simp [pieces, details, Summary.words, record, Record.label, Record.frame, Value.chars, htime, htext]
  | links frame told => simp [pieces, details, record, Record.label, Record.frame]
  | rects frame told => simp [pieces, details, record, Record.label, Record.frame]

end Event

/-! ## No word has a separator in it -/

/-- The text of a number with one decimal has digits, a sign and a point in it. -/
theorem Binary.clear_tenths {fmt : Format} (a : Binary fmt) : Clear a.tenths := by
  cases a with
  | finite units =>
    have hsign : Clear (if units < 0 then "-" else "") := by
      split <;> decide
    exact ((hsign.append (clear_toString _)).append (by decide)).append (clear_toString _)
  | negInf => exact (by decide : Clear "-inf")
  | posInf => exact (by decide : Clear "inf")
  | nan => exact (by decide : Clear "NaN")

theorem clear_timeText (nanoseconds : UInt64) : Clear (timeText nanoseconds) :=
  (Binary.clear_tenths _).append (by decide)

theorem clear_extentText (full : Bool) : Clear (extentText full) := by
  cases full <;> decide

theorem Phase.clear_name (p : Phase) : Clear p.name := by
  cases p <;> decide

theorem Value.plain_extent (full : Bool) : (Value.text (extentText full)).Plain := by
  refine ⟨clear_extentText full, ?_⟩
  cases full <;> decide

theorem Value.plain_time (nanoseconds : UInt64) : (Value.text (timeText nanoseconds)).Plain := by
  refine ⟨clear_timeText nanoseconds, ?_⟩
  have hunit : "µs".toList.all Char.isDigit = false := by decide
  rw [timeText, String.toList_append, List.all_append, hunit, Bool.and_false]

theorem Record.clear_label (x : Record) : Clear x.label := by
  cases x <;> rw [label] <;> decide

/-- The words of a line are plain, whatever its values. -/
theorem Event.plain_words (e : Event) : ∀ w ∈ e.words, w.Plain := by
  have hdetails : ∀ w ∈ e.details, w.Plain := by
    cases e with
    | push e => simp +decide [details, PushEvent.words]
    | occlusion e => simp +decide [details, OcclusionEvent.words]
    | damage e => simp +decide [details, DamageEvent.words, clear_extentText]
    | phaseBegin m => simp +decide [details, PhaseMark.words, Phase.clear_name, clear_timeText]
    | phaseEnd m => simp +decide [details, PhaseMark.words, Phase.clear_name, clear_timeText]
    | summary s => simp +decide [details, Summary.words, Value.plain_extent, Value.plain_time]
    | links frame told => simp +decide [details]
    | rects frame told => simp +decide [details]
  refine List.forall_mem_cons.mpr ⟨?_, List.forall_mem_cons.mpr ⟨?_, hdetails⟩⟩
  · exact Word.plain_name.mpr e.record.clear_label
  · exact Word.plain_count.mpr (by decide)

/-! ## Both readers -/

namespace Event

theorem wordsOf_line (e : Event) : wordsOf e.line = e.words :=
  wordsOf_lineOf e.plain_words (List.cons_ne_nil _ _) e.line_eq

/-- What a line says is what the record of its event holds. -/
theorem saidBy_details {e : Event} (h : e.Countable) : e.record.SaidBy e.details := by
  -- a count that has room is recorded as it is
  have hcount : ∀ length, length < pow2 32 → (cappedCount length).toNat = length := by
    intro length hlt
    rw [toNat_cappedCount]
    omega
  cases e with
  | push e => rfl
  | occlusion e => rfl
  | damage e => rfl
  | phaseBegin m => rfl
  | phaseEnd m => rfl
  | summary s => rfl
  | links frame told => exact ⟨_, by rw [details, hcount _ h]⟩
  | rects frame told =>
    show details _ = _
    rw [details, hcount _ h]

end Event

theorem Tracer.emitAll_printer (text : String) (events : List Event) :
    Tracer.emitAll ⟨some (.printer text)⟩ events =
      ⟨some (.printer (text ++ String.join (events.map Event.line)))⟩ := by
  induction events generalizing text with
  | nil => simp [Tracer.emitAll]
  | cons e events ih =>
    show Tracer.emitAll ⟨some (.printer (text ++ e.line))⟩ events = _
    rw [ih, List.map_cons, String.join_cons, String.append_assoc]

/-- **Lines tell what was recorded.** Of events that are traced to a printer and to a recorder, the text is made of
lines, each with one line break, at its end. There are as many lines as events, and as many as records are read from
the recording. In each line its reader finds the label of the record's kind and its frame, and behind these the numbers
and words that the record holds. Where links or rectangles are too many for the record to count, only label and frame
agree. -/
theorem lines_tell_records (events : List Event) :
    ∃ lines bytes,
      (Tracer.emitAll ⟨some (.printer "")⟩ events).sink = some (.printer (String.join lines)) ∧
      (Tracer.emitAll ⟨some (.recorder [])⟩ events).sink = some (.recorder bytes) ∧
      (∀ line ∈ lines, ∃ body, line = body ++ "\n" ∧ '\n' ∉ body.toList) ∧
      lines.length = events.length ∧ lines.length = (decode bytes).length ∧
      ∀ (place : Nat) (line : String) (x : Record), lines[place]? = some line → (decode bytes)[place]? = some x →
        ∃ e rest, events[place]? = some e ∧
          wordsOf line = ⟨x.label, []⟩ :: .count "frame" x.frame.toNat :: rest ∧ (e.Countable → x.SaidBy rest) := by
  refine ⟨events.map Event.line, recording events, ?_, ?_, ?_, List.length_map _, ?_, ?_⟩
  · rw [Tracer.emitAll_printer, String.empty_append]
  · rw [Tracer.emitAll_recorder, List.nil_append]
  · intro line hline
    obtain ⟨e, _, rfl⟩ := List.mem_map.mp hline
    have hbody : (String.join (e.pieces.map Piece.text)).toList = lineOf e.words :=
      List.append_cancel_right ((String.toList_append).symm.trans e.line_eq)
    exact ⟨_, rfl, hbody ▸ notMem_lineOf e.plain_words⟩
  · rw [decode_recording, List.length_map, List.length_map]
  · intro place line x hline hx
    rw [decode_recording] at hx
    rw [List.getElem?_map, Option.map_eq_some_iff] at hline hx
    obtain ⟨e, he, rfl⟩ := hline
    obtain ⟨e', he', rfl⟩ := hx
    obtain rfl : e = e' := Option.some.inj (he.symm.trans he')
    exact ⟨e, e.details, he, e.wordsOf_line, Event.saidBy_details⟩

end Repaint
