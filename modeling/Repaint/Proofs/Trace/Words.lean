import Repaint.Proofs.Decimal

/-!
# Lines of words

A line of text is split at spaces into words, a word at `=` and `/` into its name and its values, and a value made of
digits is a number (`wordsOf`). Words that have none of these signs in their parts are read back as they were written
(`wordsOf_lineOf`). A number is written in digits only, so it needs no such condition (`clear_toString`).
-/

namespace Repaint

/-! ## Reading -/

/-- What a line says under a name. -/
inductive Value where
  | number (n : Nat)
  /-- What is not a number in decimal. -/
  | text (s : String)
deriving DecidableEq

/-- A word of a line: a name alone, or a name and its values. -/
structure Word where
  name : String
  values : List Value := []
deriving DecidableEq

/-- A name with one number. -/
def Word.count (name : String) (n : Nat) : Word := ⟨name, [.number n]⟩

/-- The value that is written so; digits are a number. -/
def Value.read (cs : List Char) : Value :=
  if cs ≠ [] ∧ cs.all Char.isDigit then .number (Nat.ofDigitChars 10 cs 0) else .text (String.ofList cs)

/-- The word that is written so. -/
def Word.read (cs : List Char) : Word :=
  match cs.splitOn '=' with
  | [name, values] => ⟨String.ofList name, (values.splitOn '/').map Value.read⟩
  | _ => ⟨String.ofList cs, []⟩

/-- The words of a line, up to its end. -/
def wordsOf (line : String) : List Word :=
  ((line.toList.takeWhile (· ≠ '\n')).splitOn ' ').map Word.read

/-! ## Writing -/

/-- The signs that a line is split at. -/
def separators : List Char := [' ', '=', '/', '\n']

/-- A text without separators. -/
def Clear (s : String) : Prop := ∀ c ∈ s.toList, c ∉ separators

instance (s : String) : Decidable (Clear s) := List.decidableBAll (fun c => c ∉ separators) s.toList

theorem Clear.append {s t : String} (hs : Clear s) (ht : Clear t) : Clear (s ++ t) := by
  intro c hc
  rw [String.toList_append] at hc
  rcases List.mem_append.mp hc with hc | hc
  · exact hs c hc
  · exact ht c hc

/-- A number is written without separators. -/
theorem clear_toString (n : Nat) : Clear (toString n) :=
  fun _ hc => notMem_of_isDigit (by decide) (isDigit_of_mem_toString hc)

namespace Value

/-- The characters of a value. -/
def chars : Value → List Char
  | .number n => Nat.toDigits 10 n
  | .text s => s.toList

/-- A value that is not taken for another one. -/
def Plain : Value → Prop
  | .number _ => True
  | .text s => Clear s ∧ s.toList.all Char.isDigit = false

@[simp] theorem plain_number (n : Nat) : (number n).Plain := trivial

theorem Plain.clear {v : Value} (h : v.Plain) : ∀ c ∈ v.chars, c ∉ separators := by
  cases v with
  | number n =>
    have hclear := clear_toString n
    rwa [Clear, Nat.toString_eq_repr, Nat.toList_repr] at hclear
  | text s => exact h.1

theorem Plain.read_chars {v : Value} (h : v.Plain) : read v.chars = v := by
  cases v with
  | number n =>
    have hdigits : (Nat.toDigits 10 n).all Char.isDigit = true :=
      List.all_eq_true.mpr fun c hc => Nat.isDigit_of_mem_toDigits (by decide) (by decide) hc
    rw [read, chars, if_pos ⟨Nat.toDigits_ne_nil, hdigits⟩, Nat.ofDigitChars_toDigits (by decide) (by decide)]
  | text s =>
    rw [read, chars, if_neg (fun hdigits => by rw [h.2] at hdigits; cases hdigits.2), String.ofList_toList]

end Value

theorem mem_of_mem_intercalate {c sign : Char} {parts : List (List Char)} (h : c ∈ [sign].intercalate parts) :
    c = sign ∨ ∃ part ∈ parts, c ∈ part := by
  induction parts with
  | nil => simp at h
  | cons part parts ih =>
    cases parts with
    | nil =>
      rw [List.intercalate_singleton] at h
      exact .inr ⟨part, List.mem_cons_self, h⟩
    | cons next parts =>
      rw [List.intercalate_cons_cons, List.append_assoc, List.mem_append, List.mem_append, List.mem_singleton] at h
      rcases h with h | h | h
      · exact .inr ⟨part, List.mem_cons_self, h⟩
      · exact .inl h
      · rcases ih h with h | ⟨other, hother, h⟩
        · exact .inl h
        · exact .inr ⟨other, List.mem_cons_of_mem _ hother, h⟩

namespace Word

/-- The characters of the values of a word. -/
def valueChars (w : Word) : List Char := ['/'].intercalate (w.values.map Value.chars)

/-- The characters of a word. -/
def chars (w : Word) : List Char :=
  ['='].intercalate (if w.values.isEmpty then [w.name.toList] else [w.name.toList, w.valueChars])

@[simp] theorem chars_name (name : String) : chars ⟨name, []⟩ = name.toList := List.intercalate_singleton

@[simp] theorem chars_one (name : String) (v : Value) : chars ⟨name, [v]⟩ = name.toList ++ '=' :: v.chars := by
  simp [chars, valueChars, List.intercalate]

@[simp] theorem chars_two (name : String) (v v' : Value) :
    chars ⟨name, [v, v']⟩ = name.toList ++ '=' :: (v.chars ++ '/' :: v'.chars) := by
  simp [chars, valueChars, List.intercalate]

@[simp] theorem chars_count (name : String) (n : Nat) :
    (count name n).chars = name.toList ++ '=' :: Nat.toDigits 10 n := chars_one name (.number n)

/-- A word that is not taken for another one, or for several. -/
def Plain (w : Word) : Prop := Clear w.name ∧ ∀ v ∈ w.values, v.Plain

variable {w : Word} {name : String}

@[simp] theorem plain_name : Plain ⟨name, []⟩ ↔ Clear name := by
  simp [Plain]

@[simp] theorem plain_one {v : Value} : Plain ⟨name, [v]⟩ ↔ Clear name ∧ v.Plain := by
  simp [Plain]

@[simp] theorem plain_two {v v' : Value} : Plain ⟨name, [v, v']⟩ ↔ Clear name ∧ v.Plain ∧ v'.Plain := by
  simp [Plain]

@[simp] theorem plain_count {n : Nat} : (count name n).Plain ↔ Clear name := by
  simp [count]

theorem Plain.mem_valueChars (h : w.Plain) {c : Char} (hc : c ∈ w.valueChars) : c = '/' ∨ c ∉ separators := by
  rcases mem_of_mem_intercalate hc with hc | ⟨part, hpart, hc⟩
  · exact .inl hc
  · obtain ⟨v, hv, rfl⟩ := List.mem_map.mp hpart
    exact .inr ((h.2 v hv).clear c hc)

theorem Plain.mem_chars (h : w.Plain) {c : Char} (hc : c ∈ w.chars) : c = '=' ∨ c = '/' ∨ c ∉ separators := by
  rcases mem_of_mem_intercalate hc with hc | ⟨part, hpart, hc⟩
  · exact .inl hc
  · split at hpart
    · rw [List.mem_singleton.mp hpart] at hc
      exact .inr (.inr (h.1 c hc))
    · rcases List.mem_cons.mp hpart with rfl | hpart
      · exact .inr (.inr (h.1 c hc))
      · rw [List.mem_singleton.mp hpart] at hc
        exact .inr (h.mem_valueChars hc)

/-- A line may be split between its words, and the text between its lines. -/
theorem Plain.notMem_chars (h : w.Plain) {sign : Char} (hsign : sign = ' ' ∨ sign = '\n') : sign ∉ w.chars := by
  intro hc
  have hother : sign ≠ '=' ∧ sign ≠ '/' ∧ sign ∈ separators := by
    rcases hsign with rfl | rfl <;> decide
  rcases h.mem_chars hc with hc | hc | hc
  · exact hother.1 hc
  · exact hother.2.1 hc
  · exact hc hother.2.2

theorem Plain.read_values (h : w.Plain) (hne : w.values ≠ []) :
    (w.valueChars.splitOn '/').map Value.read = w.values := by
  have hsplit : w.valueChars.splitOn '/' = w.values.map Value.chars := by
    refine List.splitOn_intercalate '/' (fun part hpart hc => ?_) (by simpa using hne)
    obtain ⟨v, hv, rfl⟩ := List.mem_map.mp hpart
    exact (h.2 v hv).clear '/' hc (by decide)
  calc (w.valueChars.splitOn '/').map Value.read
    _ = w.values.map (Value.read ∘ Value.chars) := by rw [hsplit, List.map_map]
    _ = w.values.map id := List.map_congr_left fun v hv => (h.2 v hv).read_chars
    _ = w.values := List.map_id _

theorem Plain.read_chars (h : w.Plain) : read w.chars = w := by
  have hname : '=' ∉ w.name.toList := fun hc => h.1 '=' hc (by decide)
  have hvalues : '=' ∉ w.valueChars := by
    intro hc
    rcases h.mem_valueChars hc with hc | hc
    · cases hc
    · exact hc (by decide)
  obtain ⟨name, values⟩ := w
  cases values with
  | nil =>
    have hsplit : (chars ⟨name, []⟩).splitOn '=' = [name.toList] :=
      List.splitOn_intercalate '=' (by simpa using hname) (List.cons_ne_nil _ _)
    rw [read, hsplit, chars_name, String.ofList_toList]
  | cons v values =>
    have hsplit : (chars ⟨name, v :: values⟩).splitOn '=' = [name.toList, valueChars ⟨name, v :: values⟩] :=
      List.splitOn_intercalate '=' (by simpa using ⟨hname, hvalues⟩) (List.cons_ne_nil _ _)
    simp only [read, hsplit, String.ofList_toList, h.read_values (List.cons_ne_nil _ _)]

end Word

/-- The characters of a line of words. -/
def lineOf (words : List Word) : List Char := [' '].intercalate (words.map Word.chars)

@[simp] theorem lineOf_singleton (w : Word) : lineOf [w] = w.chars := List.intercalate_singleton

@[simp] theorem lineOf_cons (w next : Word) (words : List Word) :
    lineOf (w :: next :: words) = w.chars ++ ' ' :: lineOf (next :: words) := by
  rw [lineOf, List.map_cons, List.map_cons, List.intercalate_cons_cons, List.append_assoc]
  rfl

theorem notMem_lineOf {words : List Word} (h : ∀ w ∈ words, w.Plain) : '\n' ∉ lineOf words := by
  intro hc
  rcases mem_of_mem_intercalate hc with hc | ⟨part, hpart, hc⟩
  · cases hc
  · obtain ⟨w, hw, rfl⟩ := List.mem_map.mp hpart
    exact (h w hw).notMem_chars (.inr rfl) hc

/-- Plain words are read back. -/
theorem wordsOf_lineOf {words : List Word} (h : ∀ w ∈ words, w.Plain) (hne : words ≠ []) {line : String}
    (hline : line.toList = lineOf words ++ ['\n']) : wordsOf line = words := by
  have hbody : line.toList.takeWhile (· ≠ '\n') = lineOf words := by
    rw [hline, List.takeWhile_append_of_pos]
    · simp
    · intro c hc
      have hne : c ≠ '\n' := by
        rintro rfl
        exact notMem_lineOf h hc
      simpa using hne
  have hsplit : (lineOf words).splitOn ' ' = words.map Word.chars := by
    refine List.splitOn_intercalate ' ' (fun part hpart hc => ?_) (by simpa using hne)
    obtain ⟨w, hw, rfl⟩ := List.mem_map.mp hpart
    exact (h w hw).notMem_chars (.inl rfl) hc
  calc wordsOf line
    _ = words.map (Word.read ∘ Word.chars) := by rw [wordsOf, hbody, hsplit, List.map_map]
    _ = words.map id := List.map_congr_left fun w hw => (h w hw).read_chars
    _ = words := List.map_id _

example : wordsOf "[damage] age=2 FULL layers=3/40\n" =
    [⟨"[damage]", []⟩, ⟨"age", [.number 2]⟩, ⟨"FULL", []⟩, ⟨"layers", [.number 3, .number 40]⟩] := by decide

end Repaint
