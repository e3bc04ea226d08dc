import Repaint.Proofs.Json
import Repaint.Proofs.Outcome
import Repaint.Trace.Timeline
import Mathlib.Data.List.Nodup

/-!
# A timeline tells what was recorded

A timeline has one object for each record that is read, in order, and what the object shows is the record
(`timelineText_tells`). A viewer looks fields up by their names, so what an object shows is said of names and values,
and not of the order that they are written in.

* **objects** — fields are put in order, and none is lost or changed (`Json.perm_sorted`, `Json.field?_sorted`);
* **entries** — the object of an entry shows the fields of its record and no others (`Record.shown_entry`);
* **times** — the time that is handed on from record to record is that of the last phase mark (`getElem?_timeline`);
* **text** — no name or label has a quote in it, so no other objects are written so (`legible_timelineItems`).
-/

namespace Repaint

/-- The time in microseconds of the last phase mark; zero if there was none. -/
def timeOf (last : Option PhaseMark) : Coord := last.elim 0 (fun m => microseconds m.time)

/-! ## Objects -/

namespace Json

/-- What a viewer finds in an object under a name. -/
def field? (name : String) : Json → Option Json
  | .object fields => fields.lookup name
  | _ => none

variable {name : String} {field : String × Json} {fields : List (String × Json)}

theorem perm_insertField : (insertField field fields).Perm (field :: fields) := by
  induction fields with
  | nil => exact .refl _
  | cons next fields ih =>
    rw [insertField]
    split
    · exact .refl _
    · exact (ih.cons next).trans (.swap field next fields)

/-- Fields are put in order, and none is lost or added. -/
theorem perm_sorted : (fields.foldr insertField []).Perm fields := by
  induction fields with
  | nil => exact .refl _
  | cons field fields ih => exact perm_insertField.trans (ih.cons field)

theorem lookup_insertField : (insertField field fields).lookup name = (field :: fields).lookup name := by
  induction fields with
  | nil => rfl
  | cons next fields ih =>
    rw [insertField]
    split
    · rfl
    · rename_i hbefore
      -- the field moves behind one of another name
      have hne : field.1 ≠ next.1 := fun heq => hbefore (heq ▸ String.le_refl _)
      rw [List.lookup_cons, ih, List.lookup_cons, List.lookup_cons, List.lookup_cons]
      by_cases hnext : name = next.1
      · have hfield : (name == field.1) = false := beq_eq_false_iff_ne.mpr fun heq => hne (heq.symm.trans hnext)
        simp only [hfield, beq_iff_eq.mpr hnext]
      · simp only [beq_eq_false_iff_ne.mpr hnext]

/-- Putting the fields in order does not change what is found under a name. -/
theorem field?_sorted : (sorted fields).field? name = fields.lookup name := by
  show (fields.foldr insertField []).lookup name = _
  induction fields with
  | nil => rfl
  | cons field fields ih =>
    rw [List.foldr_cons, lookup_insertField, List.lookup_cons, List.lookup_cons, ih]

theorem legible_sorted (h : ∀ field ∈ fields, '"' ∉ field.1.toList ∧ field.2.Legible) : (sorted fields).Legible :=
  .object (fun field hfield => (h field (perm_sorted.mem_iff.mp hfield)).1)
    (fun field hfield => (h field (perm_sorted.mem_iff.mp hfield)).2)

/-- The object has these arguments and no others, each name once. -/
def HasArgs (args : List (String × Json)) (item : Json) : Prop :=
  ∃ written, item.field? "args" = some (.object written) ∧ written.Perm args ∧ (written.map Prod.fst).Nodup

/-- An object for a phase mark: it has the phase, the time and the frame of the mark. -/
structure Marks (letter : String) (m : PhaseMark) (item : Json) : Prop where
  kind : item.field? "ph" = some (.label letter)
  phase : ∀ p : Phase, item.field? "name" = some (.label p.title) ↔ p = m.phase
  time : item.field? "ts" = some (.real (microseconds m.time))
  args : item.HasArgs [("frame_index", .count m.frame.toNat)]

/-- An object for an outcome: it stands at the time of the last phase mark. -/
structure Tells (title : String) (last : Option PhaseMark) (args : List (String × Json)) (item : Json) : Prop where
  kind : item.field? "ph" = some (.label "i")
  title : item.field? "name" = some (.label title)
  time : item.field? "ts" = some (.real (timeOf last))
  args : item.HasArgs args

end Json

/-! ## Entries -/

/-- The phase mark that a record is. -/
def Record.mark? : Record → Option PhaseMark
  | .phaseBegin m => some m
  | .phaseEnd m => some m
  | _ => none

/-- The object shows the record, the last phase mark before it being `last`. -/
def Record.ShownBy (last : Option PhaseMark) (item : Json) : Record → Prop
  | .phaseBegin m => item.Marks "B" m
  | .phaseEnd m => item.Marks "E" m
  | .push e => item.Tells "LayoutAppend" last [
      ("frame_index", .count e.frame.toNat), ("generation", .count e.generation.toNat),
      ("candidates", .count e.candidates.toNat), ("layers", .count e.layers.toNat),
      ("new_layers", .count e.newLayers.toNat), ("removed", .count e.removed.toNat),
      ("capacity", .count e.capacity.toNat)]
  | .occlusion e => item.Tells "Occlusion" last [
      ("frame_index", .count e.frame.toNat), ("visited", .count e.visited.toNat),
      ("culled", .count e.culled.toNat), ("opaque", .count e.occluders.toNat)]
  | .damage e => item.Tells "FrameDamage" last [
      ("frame_index", .count e.frame.toNat), ("buffer_age", .count e.age.toNat), ("full", .flag e.full),
      ("rects", .count e.rects.toNat)]
  | .summary s => item.Tells "FrameSummary" last [
      ("frame_index", .count s.frame.toNat), ("generation", .count s.generation.toNat),
      ("layers", .count s.layers.toNat), ("new_layers", .count s.newLayers.toNat),
      ("removed", .count s.removed.toNat), ("culled", .count s.culled.toNat), ("damage_full", .flag s.damageFull),
      ("damage_rects", .count s.damageRects.toNat), ("append_us", .real (microseconds s.appendTime)),
      ("occlusion_us", .real (microseconds s.occlusionTime)), ("damage_us", .real (microseconds s.damageTime))]
  | .linkCount frame count => item.Tells "LayerLinks" last [
      ("frame_index", .count frame.toNat), ("count", .count count.toNat)]
  | .rectCount frame count => item.Tells "DamageRects" last [
      ("frame_index", .count frame.toNat), ("count", .count count.toNat)]

/-- What is found in the object of an entry. -/
theorem Entry.field?_json (e : Entry) :
    e.json.field? "ph" = some (.label (kindLabel e.kind)) ∧ e.json.field? "name" = some (.label e.name) ∧
      e.json.field? "ts" = some (.real e.time) ∧ e.json.field? "args" = some (Json.sorted e.args) := by
  simp only [Entry.json, Json.field?_sorted]
  simp [List.lookup_cons]

theorem Entry.hasArgs_json (e : Entry) (h : (e.args.map Prod.fst).Nodup) : e.json.HasArgs e.args :=
  ⟨_, e.field?_json.2.2.2, Json.perm_sorted, (Json.perm_sorted.map Prod.fst).nodup_iff.mpr h⟩

theorem Phase.title_inj {p q : Phase} : p.title = q.title ↔ p = q := by
  cases p <;> cases q <;> decide

theorem PhaseMark.marks_entry (m : PhaseMark) (kind : EntryKind) :
    (m.entry kind).json.Marks (Entry.kindLabel kind) m := by
  obtain ⟨hkind, hname, htime, _⟩ := (m.entry kind).field?_json
  refine ⟨hkind, fun p => ?_, htime, (m.entry kind).hasArgs_json (List.nodup_singleton _)⟩
  rw [hname, Option.some_inj, Json.label.injEq]
  exact Phase.title_inj.trans eq_comm

/-- No name comes twice among the fields of an entry. -/
theorem Record.nodup_args (time : Coord) (x : Record) : ((x.entry time).args.map Prod.fst).Nodup := by
  cases x <;> simp [entry, PhaseMark.entry]

/-- The entry of a record shows it. -/
theorem Record.shown_entry (last : Option PhaseMark) (x : Record) :
    x.ShownBy last (x.entry (timeOf last)).json := by
  obtain ⟨hkind, hname, htime, _⟩ := (x.entry (timeOf last)).field?_json
  have hargs := (x.entry (timeOf last)).hasArgs_json (x.nodup_args _)
  cases x with
  | push e => exact ⟨hkind, hname, htime, hargs⟩
  | occlusion e => exact ⟨hkind, hname, htime, hargs⟩
  | damage e => exact ⟨hkind, hname, htime, hargs⟩
  | phaseBegin m => exact m.marks_entry .opening
  | phaseEnd m => exact m.marks_entry .closing
  | summary s => exact ⟨hkind, hname, htime, hargs⟩
  | linkCount frame count => exact ⟨hkind, hname, htime, hargs⟩
  | rectCount frame count => exact ⟨hkind, hname, htime, hargs⟩

theorem Entry.legible_json {e : Entry} (hname : '"' ∉ e.name.toList) (hcategory : '"' ∉ e.category.toList)
    (hargs : ∀ field ∈ e.args, '"' ∉ field.1.toList ∧ field.2.Legible) : e.json.Legible := by
  have hkind : '"' ∉ (kindLabel e.kind).toList := by
    cases e.kind <;> decide
  refine Json.legible_sorted (List.forall_mem_append.mpr ⟨?_, ?_⟩)
  · simp +decide [Json.Legible.label hkind, Json.Legible.label hname, Json.Legible.label hcategory,
      Json.legible_sorted hargs]
  · split <;> simp +decide [Json.Legible.label]

theorem Phase.closed_title (p : Phase) : '"' ∉ p.title.toList := by
  cases p <;> decide

/-- No name or label in the entry of a record has a quote in it. -/
theorem Record.legible_entry (time : Coord) (x : Record) : (x.entry time).json.Legible := by
  apply Entry.legible_json
  · cases x <;> simp +decide [entry, PhaseMark.entry, Phase.closed_title]
  · cases x <;> simp +decide [entry, PhaseMark.entry]
  · cases x <;> simp +decide [entry, PhaseMark.entry, Json.word64, Json.word32]

/-! ## Times -/

/-- The last phase mark among some records, or else one before them. -/
def lastMark (before : Option PhaseMark) (records : List Record) : Option PhaseMark :=
  (records.filterMap Record.mark?).getLast?.or before

theorem timeOf_mark? (before : Option PhaseMark) (x : Record) :
    x.time?.getD (timeOf before) = timeOf (x.mark?.or before) := by
  cases x <;> rfl

theorem lastMark_cons (before : Option PhaseMark) (x : Record) (records : List Record) :
    lastMark before (x :: records) = lastMark (x.mark?.or before) records := by
  unfold lastMark
  cases hmark : x.mark? with
  | none => rw [List.filterMap_cons_none hmark, Option.none_or]
  | some m =>
    rw [List.filterMap_cons_some hmark, List.getLast?_cons]
    cases (records.filterMap Record.mark?).getLast? <;> rfl

/-- The time that is handed on is that of the last phase mark. -/
theorem getElem?_timeline (before : Option PhaseMark) (records : List Record) (place : Nat) :
    (timeline (timeOf before) records)[place]? =
      records[place]?.map (fun x => x.entry (timeOf (lastMark before (records.take place)))) := by
  induction records generalizing before place with
  | nil => rfl
  | cons x records ih =>
    rw [timeline]
    cases place with
    | zero => simp [lastMark]
    | succ place =>
      rw [List.getElem?_cons_succ, timeOf_mark?, ih, List.getElem?_cons_succ, List.take_succ_cons, lastMark_cons]

theorem length_timeline (time : Coord) (records : List Record) : (timeline time records).length = records.length := by
  induction records generalizing time with
  | nil => rfl
  | cons x records ih => rw [timeline, List.length_cons, ih, List.length_cons]

/-! ## The text -/

/-- The objects of the timeline of a recording. -/
def timelineItems (bytes : List UInt8) : List Json := (timeline 0 (decode bytes)).map Entry.json

theorem legible_timelineItems (bytes : List UInt8) : (Json.list (timelineItems bytes)).Legible := by
  refine .list fun item hitem => ?_
  obtain ⟨e, he, rfl⟩ := List.mem_map.mp hitem
  obtain ⟨place, hplace⟩ := List.mem_iff_getElem?.mp he
  rw [show (0 : Coord) = timeOf none from rfl, getElem?_timeline, Option.map_eq_some_iff] at hplace
  obtain ⟨x, _, rfl⟩ := hplace
  exact x.legible_entry _

/-- **A timeline tells what was recorded.** Of any bytes, the list that is written has one object for each record that
is read, in order. A phase mark is shown where the phase begins or ends, with its own phase, frame and time. Every other
record is shown as an instant with the fields of the record and no others, at the time of the last phase mark before it,
or at zero if there is none. The text shows these objects and no others: every legible value that is written so is the
list of them, up to real numbers with the same text. -/
theorem timelineText_tells (bytes : List UInt8) :
    timelineText bytes = (Json.list (timelineItems bytes)).text 0 ∧
      (∀ value : Json, value.Legible → value.text 0 = timelineText bytes → value.Alike (.list (timelineItems bytes))) ∧
      (timelineItems bytes).length = (decode bytes).length ∧
      ∀ (place : Nat) (x : Record), (decode bytes)[place]? = some x → ∃ item, (timelineItems bytes)[place]? = some item ∧
        x.ShownBy (((decode bytes).take place).filterMap Record.mark?).getLast? item := by
  refine ⟨rfl, fun value hvalue htext => ?_, ?_, fun place x hx => ?_⟩
  · exact Json.alike_of_text_eq hvalue (legible_timelineItems bytes) htext
  · rw [timelineItems, List.length_map, length_timeline]
  · have hentry := getElem?_timeline none (decode bytes) place
    rw [hx, Option.map_some, lastMark, Option.or_none] at hentry
    refine ⟨_, ?_, Record.shown_entry _ x⟩
    rw [timelineItems, List.getElem?_map]
    exact congrArg (Option.map Entry.json) hentry

end Repaint
