import Repaint.Json
import Repaint.Proofs.Decimal
import Mathlib.Data.List.Forall2

/-!
# The text of a JSON value determines it

The text of a value shows what it is, and where it ends if another one stands behind it: legible values that are written
alike are alike (`Legible.determined`, `alike_of_text_eq`). They are the same values then, up to real numbers that have
the same text.

* **bare values** — numbers and flags have no sign in their text that ends a value or begins one of another kind
  (`Bare.unmarked`), and their text tells which of the three they are (`Bare.alike`);
* **blocks** — if the text of each item determines it, that of a list or an object determines them all
  (`forall₂_of_body`).
-/

namespace Repaint

namespace Json

/-! ## Values that are written alike -/

/-- The same values, but for real numbers that are written alike. -/
inductive Alike : Json → Json → Prop
  | count (n : Nat) : Alike (.count n) (.count n)
  | real {x y : Coord} (written : (real x).text 0 = (real y).text 0) : Alike (.real x) (.real y)
  | flag (b : Bool) : Alike (.flag b) (.flag b)
  | label (s : String) : Alike (.label s) (.label s)
  | list {items items' : List Json} (alike : List.Forall₂ Alike items items') : Alike (.list items) (.list items')
  | object {fields fields' : List (String × Json)} (names : fields.map Prod.fst = fields'.map Prod.fst)
      (values : List.Forall₂ Alike (fields.map Prod.snd) (fields'.map Prod.snd)) : Alike (.object fields) (.object fields')

/-- Numbers and flags are written without a mark around them. -/
inductive Bare : Json → Prop
  | count (n : Nat) : Bare (.count n)
  | real (x : Coord) : Bare (.real x)
  | flag (b : Bool) : Bare (.flag b)

/-- No label and no name has a quote in it, where a reader would take it to end. -/
inductive Legible : Json → Prop
  | bare {x : Json} (bare : x.Bare) : Legible x
  | label {s : String} (closed : '"' ∉ s.toList) : Legible (.label s)
  | list {items : List Json} (legible : ∀ item ∈ items, Legible item) : Legible (.list items)
  | object {fields : List (String × Json)} (names : ∀ field ∈ fields, '"' ∉ field.1.toList)
      (values : ∀ field ∈ fields, Legible field.2) : Legible (.object fields)

@[simp] theorem legible_count (n : Nat) : (count n).Legible := .bare (.count n)

@[simp] theorem legible_real (x : Coord) : (real x).Legible := .bare (.real x)

@[simp] theorem legible_flag (b : Bool) : (flag b).Legible := .bare (.flag b)

variable {depth : Nat} {x y : Json} {rest rest' : List Char}

/-- Two texts that stop at the first of some signs stop at the same place. -/
theorem eq_of_stops {signs cs cs' : List Char} (h : ∀ c ∈ cs, c ∉ signs) (h' : ∀ c ∈ cs', c ∉ signs)
    (hrest : ∀ c ∈ rest.head?, c ∈ signs) (hrest' : ∀ c ∈ rest'.head?, c ∈ signs) (heq : cs ++ rest = cs' ++ rest') :
    cs = cs' ∧ rest = rest' := by
  induction cs generalizing cs' with
  | nil =>
    cases cs' with
    | nil => exact ⟨rfl, heq⟩
    | cons c cs' =>
      obtain rfl : rest = c :: (cs' ++ rest') := heq
      exact absurd (hrest c rfl) (h' c List.mem_cons_self)
  | cons c cs ih =>
    cases cs' with
    | nil =>
      obtain rfl : c :: (cs ++ rest) = rest' := heq
      exact absurd (hrest' c rfl) (h c List.mem_cons_self)
    | cons c' cs' =>
      obtain ⟨rfl, htail⟩ := List.cons.inj heq
      obtain ⟨rfl, hsame⟩ := ih (List.forall_mem_cons.mp h).2 (List.forall_mem_cons.mp h').2 htail
      exact ⟨rfl, hsame⟩

/-- The characters of a value's text. -/
def chars (depth : Nat) (x : Json) : List Char := (x.text depth).toList

/-- What may follow a value: nothing, another one, or a new line. -/
def Follows (rest : List Char) : Prop := ∀ c ∈ rest.head?, c = ',' ∨ c = '\n'

theorem follows_nil : Follows [] := fun _ hc => by cases hc

theorem follows_cons {c : Char} (h : c = ',' ∨ c = '\n') : Follows (c :: rest) := by
  intro c' hc
  cases hc
  exact h

/-! ## Bare values -/

/-- The signs that begin a value that is not bare. -/
def openings : List Char := ['"', '[', '\x7b']

/-- The signs that end a value, and those that begin one that is not bare. -/
def marks : List Char := ',' :: '\n' :: openings

/-- A text without marks. -/
def Unmarked (cs : List Char) : Prop := ∀ c ∈ cs, c ∉ marks

instance (cs : List Char) : Decidable (Unmarked cs) := List.decidableBAll (fun c => c ∉ marks) cs

/-- What has no marks ends where something may follow. -/
theorem Unmarked.eq_of_append_eq {cs cs' : List Char} (h : Unmarked cs) (h' : Unmarked cs') (hrest : Follows rest)
    (hrest' : Follows rest') (heq : cs ++ rest = cs' ++ rest') : cs = cs' ∧ rest = rest' := by
  have hmark : ∀ c, c = ',' ∨ c = '\n' → c ∈ marks := by
    intro c hc
    rcases hc with rfl | rfl <;> decide
  exact eq_of_stops h h' (fun c hc => hmark c (hrest c hc)) (fun c hc => hmark c (hrest' c hc)) heq

theorem chars_count (n : Nat) : (count n).chars depth = (toString n).toList := rfl

theorem chars_real (x : Coord) : (real x).chars depth = (if x.isFinite then x.shortest else "null").toList := rfl

theorem chars_flag (b : Bool) : (flag b).chars depth = (if b then "true" else "false").toList := rfl

theorem Bare.unmarked (h : x.Bare) : Unmarked (x.chars depth) := by
  have hdigit : ∀ c : Char, c.isDigit = true → c ∉ marks := fun c => notMem_of_isDigit (by decide)
  cases h with
  | count n => exact fun c hc => hdigit c (isDigit_of_mem_toString hc)
  | real x =>
    rw [chars_real]
    split
    · rename_i hfinite
      have hsigns : Unmarked Decimal.signs := by decide
      intro c hc
      rcases Binary.numeral_shortest hfinite c hc with hc | hc
      · exact hdigit c hc
      · exact hsigns c hc
    · decide
  | flag b =>
    rw [chars_flag]
    cases b <;> decide

/-! ### Which of them it is -/

/-- A real number has a sign in its text that a whole one has not. -/
theorem exists_sign_real (x : Coord) : ∃ c ∈ (real x).chars depth, c.isDigit = false := by
  rw [chars_real]
  split
  · rename_i hfinite
    exact Binary.exists_sign_shortest hfinite
  · exact ⟨'n', by decide, by decide⟩

/-- A flag has a letter in its text that a number has not. -/
theorem exists_letter_flag (b : Bool) : ∃ c ∈ (flag b).chars depth, c = 't' ∨ c = 'f' := by
  rw [chars_flag]
  cases b with
  | false => exact ⟨'f', by decide, .inr rfl⟩
  | true => exact ⟨'t', by decide, .inl rfl⟩

theorem not_letter_count {n : Nat} : ∀ c ∈ (count n).chars depth, ¬ (c = 't' ∨ c = 'f') := by
  rintro c hc (rfl | rfl)
  · cases isDigit_of_mem_toString hc
  · cases isDigit_of_mem_toString hc

theorem not_letter_real {x : Coord} : ∀ c ∈ (real x).chars depth, ¬ (c = 't' ∨ c = 'f') := by
  rw [chars_real]
  split
  · rename_i hfinite
    rintro c hc (rfl | rfl)
    · exact absurd (Binary.numeral_shortest hfinite _ hc) (by decide)
    · exact absurd (Binary.numeral_shortest hfinite _ hc) (by decide)
  · rintro c hc (rfl | rfl)
    · exact absurd hc (by decide)
    · exact absurd hc (by decide)

theorem chars_count_ne_real {n : Nat} {x : Coord} : (count n).chars depth ≠ (real x).chars depth := by
  intro h
  obtain ⟨c, hc, hsign⟩ : ∃ c ∈ (real x).chars depth, c.isDigit = false := exists_sign_real x
  rw [← h] at hc
  rw [isDigit_of_mem_toString hc] at hsign
  cases hsign

theorem chars_flag_ne {b : Bool} (hx : ∀ c ∈ x.chars depth, ¬ (c = 't' ∨ c = 'f')) :
    (flag b).chars depth ≠ x.chars depth := by
  intro h
  obtain ⟨c, hc, hletter⟩ : ∃ c ∈ (flag b).chars depth, c = 't' ∨ c = 'f' := exists_letter_flag b
  exact hx c (h ▸ hc) hletter

theorem Bare.alike (hx : x.Bare) (hy : y.Bare) (h : x.chars depth = y.chars depth) : x.Alike y := by
  cases hx with
  | count n =>
    cases hy with
    | count m =>
      rw [chars_count, chars_count, String.toList_inj] at h
      obtain rfl := toString_inj h
      exact .count n
    | real y => exact (chars_count_ne_real h).elim
    | flag c => exact (chars_flag_ne not_letter_count h.symm).elim
  | real x =>
    cases hy with
    | count m => exact (chars_count_ne_real h.symm).elim
    | real y => exact .real (String.toList_inj.mp h)
    | flag c => exact (chars_flag_ne not_letter_real h.symm).elim
  | flag b =>
    cases hy with
    | count m => exact (chars_flag_ne not_letter_count h).elim
    | real y => exact (chars_flag_ne not_letter_real h).elim
    | flag c =>
      rw [chars_flag, chars_flag, String.toList_inj] at h
      cases b <;> cases c
      · exact .flag false
      · exact absurd h (by decide)
      · exact absurd h (by decide)
      · exact .flag true

/-! ## Blocks -/

/-- What stands behind an item of a block: the further items, each on a line of its own, and the last mark. -/
def more (depth : Nat) (last : List Char) : List (List Char) → List Char
  | [] => (newline depth).toList ++ last
  | item :: items => ',' :: ((newline (depth + 1)).toList ++ (item ++ more depth last items))

/-- What stands behind the first mark of a block. -/
def body (depth : Nat) (last : List Char) : List (List Char) → List Char
  | [] => last
  | item :: items => (newline (depth + 1)).toList ++ (item ++ more depth last items)

theorem toList_lines (depth : Nat) (last item : String) (items : List String) :
    (String.join (((item :: items).map (newline (depth + 1) ++ ·)).intersperse ",") ++ newline depth ++ last).toList =
      body depth last.toList ((item :: items).map String.toList) := by
  induction items generalizing item with
  | nil => simp [body, more]
  | cons next items ih =>
    have hrest := ih next
    simp only [List.map_cons, List.intersperse_cons_cons, String.join_cons, String.toList_append, body, more,
      List.append_assoc] at hrest ⊢
    rw [hrest]
    rfl

theorem toList_block (depth : Nat) (first last : String) (items : List String) :
    (block depth first last items).toList = first.toList ++ body depth last.toList (items.map String.toList) := by
  cases items with
  | nil => exact String.toList_append
  | cons item items =>
    rw [← toList_lines, block, if_neg (by simp), String.append_assoc, String.append_assoc, String.toList_append,
      String.append_assoc]

theorem toList_newline (depth : Nat) : (newline depth).toList = '\n' :: List.replicate (2 * depth) ' ' := by
  simp [newline]

theorem follows_more {last : List Char} (items : List (List Char)) : Follows (more depth last items ++ rest) := by
  cases items with
  | nil =>
    rw [more, toList_newline]
    exact follows_cons (.inr rfl)
  | cons item items => exact follows_cons (.inl rfl)

section

variable {α : Type} {write : α → List Char} {R : α → α → Prop} {items items' : List α} {last : List Char}

/-- If the text of each item determines it, the text behind an item determines the further ones. -/
theorem forall₂_of_more
    (hitem : ∀ a ∈ items, ∀ b ∈ items', ∀ rest rest', Follows rest → Follows rest' →
      write a ++ rest = write b ++ rest' → R a b ∧ rest = rest')
    (h : more depth last (items.map write) ++ rest = more depth last (items'.map write) ++ rest') :
    List.Forall₂ R items items' ∧ rest = rest' := by
  induction items generalizing items' with
  | nil =>
    cases items' with
    | nil => exact ⟨.nil, List.append_cancel_left h⟩
    | cons b items' =>
      rw [List.map_nil, more, toList_newline] at h
      cases (List.cons.inj h).1
  | cons a items ih =>
    cases items' with
    | nil =>
      rw [List.map_nil, more, toList_newline] at h
      cases (List.cons.inj h).1
    | cons b items' =>
      simp only [List.map_cons, more, List.cons_append, List.append_assoc, List.cons.injEq, true_and,
        List.append_cancel_left_eq] at h
      obtain ⟨hab, h⟩ := hitem a List.mem_cons_self b List.mem_cons_self _ _ (follows_more _) (follows_more _) h
      obtain ⟨hrest, hsame⟩ := ih (fun a ha b hb =>
        hitem a (List.mem_cons_of_mem _ ha) b (List.mem_cons_of_mem _ hb)) h
      exact ⟨.cons hab hrest, hsame⟩

/-- If the text of each item determines it, that of a block determines them all. -/
theorem forall₂_of_body {mark : Char} (hmark : mark ≠ '\n')
    (hitem : ∀ a ∈ items, ∀ b ∈ items', ∀ rest rest', Follows rest → Follows rest' →
      write a ++ rest = write b ++ rest' → R a b ∧ rest = rest')
    (h : body depth [mark] (items.map write) ++ rest = body depth [mark] (items'.map write) ++ rest') :
    List.Forall₂ R items items' ∧ rest = rest' := by
  cases items with
  | nil =>
    cases items' with
    | nil => exact ⟨.nil, List.append_cancel_left h⟩
    | cons b items' =>
      rw [List.map_cons, body, toList_newline] at h
      exact (hmark (List.cons.inj h).1).elim
  | cons a items =>
    cases items' with
    | nil =>
      rw [List.map_cons, body, toList_newline] at h
      exact (hmark (List.cons.inj h).1.symm).elim
    | cons b items' => exact forall₂_of_more hitem (congrArg (',' :: ·) h)

end

/-- The characters of a field's text. -/
def fieldChars (depth : Nat) (field : String × Json) : List Char :=
  '"' :: (field.1.toList ++ '"' :: ':' :: ' ' :: field.2.chars depth)

theorem chars_label (s : String) : (label s).chars depth = '"' :: (s.toList ++ ['"']) := by
  simp [chars, text, quoted]

theorem chars_list (items : List Json) :
    (list items).chars depth = '[' :: body depth [']'] (items.map (chars (depth + 1))) := by
  have hitems : (itemTexts (depth + 1) items).map String.toList = items.map (chars (depth + 1)) := by
    induction items with
    | nil => rfl
    | cons item items ih => rw [itemTexts, List.map_cons, List.map_cons, ih, chars]
  rw [chars, text, toList_block, hitems]
  rfl

theorem chars_object (fields : List (String × Json)) :
    (object fields).chars depth = '\x7b' :: body depth ['\x7d'] (fields.map (fieldChars (depth + 1))) := by
  have hfields : (fieldTexts (depth + 1) fields).map String.toList = fields.map (fieldChars (depth + 1)) := by
    induction fields with
    | nil => rfl
    | cons field fields ih =>
      obtain ⟨name, value⟩ := field
      rw [fieldTexts, List.map_cons, List.map_cons, ih]
      simp [fieldChars, chars, quoted]
  rw [chars, text, toList_block, hfields]
  rfl

/-! ## All values -/

/-- Before whatever may follow, the text shows the value and where it ends. -/
def Determined (x : Json) : Prop :=
  ∀ (depth : Nat) (y : Json) (rest rest' : List Char), y.Legible → Follows rest → Follows rest' →
    x.chars depth ++ rest = y.chars depth ++ rest' → x.Alike y ∧ rest = rest'

/-- What is quoted ends at its second quote. -/
theorem eq_of_quoted {s t : String} (h : '"' ∉ s.toList) (h' : '"' ∉ t.toList)
    (heq : s.toList ++ '"' :: rest = t.toList ++ '"' :: rest') : s = t ∧ rest = rest' := by
  have hclosed {u : String} (h : '"' ∉ u.toList) : ∀ c ∈ u.toList, c ∉ ['"'] := by
    intro c hc hquote
    exact h (List.mem_singleton.mp hquote ▸ hc)
  have hquote (cs : List Char) : ∀ c ∈ ('"' :: cs).head?, c ∈ ['"'] := by
    intro c hc
    cases hc
    exact List.mem_singleton_self _
  obtain ⟨hsame, hrest⟩ := eq_of_stops (hclosed h) (hclosed h') (hquote _) (hquote _) heq
  exact ⟨String.toList_inj.mp hsame, (List.cons.inj hrest).2⟩

theorem Determined.field {field field' : String × Json} (h : field.2.Determined) (hname : '"' ∉ field.1.toList)
    (hname' : '"' ∉ field'.1.toList) (hvalue' : field'.2.Legible) (hrest : Follows rest) (hrest' : Follows rest')
    (heq : fieldChars depth field ++ rest = fieldChars depth field' ++ rest') :
    (field.1 = field'.1 ∧ field.2.Alike field'.2) ∧ rest = rest' := by
  simp only [fieldChars, List.cons_append, List.append_assoc, List.cons.injEq, true_and] at heq
  obtain ⟨hnames, hvalues⟩ := eq_of_quoted hname hname' heq
  simp only [List.cons.injEq, true_and] at hvalues
  obtain ⟨halike, hsame⟩ := h depth field'.2 rest rest' hvalue' hrest hrest' hvalues
  exact ⟨⟨hnames, halike⟩, hsame⟩

variable {mark : Char} {cs : List Char}

/-- The text of a bare value does not begin as that of another one. -/
theorem Bare.chars_append_ne (h : x.Bare) (hrest : Follows rest) (hmark : mark ∈ openings) :
    x.chars depth ++ rest ≠ mark :: cs := by
  intro heq
  have hclear : Unmarked (x.chars depth) := h.unmarked
  cases hchars : x.chars depth with
  | nil =>
    rw [hchars] at heq
    obtain rfl : rest = mark :: cs := heq
    rcases hrest mark rfl with rfl | rfl <;> exact absurd hmark (by decide)
  | cons c more =>
    rw [hchars] at heq hclear
    obtain rfl : c = mark := (List.cons.inj heq).1
    exact hclear c List.mem_cons_self (List.mem_cons_of_mem _ (List.mem_cons_of_mem _ hmark))

/-- Of what kind a legible value is that begins with a mark. -/
theorem Legible.of_opening (h : x.Legible) (hrest : Follows rest) (hmark : mark ∈ openings)
    (heq : mark :: cs = x.chars depth ++ rest) :
    (mark = '"' ∧ ∃ s, x = Json.label s ∧ '"' ∉ s.toList) ∨
      (mark = '[' ∧ ∃ items, x = Json.list items ∧ ∀ item ∈ items, item.Legible) ∨
      (mark = '\x7b' ∧ ∃ fields, x = Json.object fields ∧ (∀ field ∈ fields, '"' ∉ field.1.toList) ∧
        ∀ field ∈ fields, field.2.Legible) := by
  cases h with
  | bare h => exact (h.chars_append_ne hrest hmark heq.symm).elim
  | label closed =>
    rw [chars_label] at heq
    exact .inl ⟨(List.cons.inj heq).1, _, rfl, closed⟩
  | list legible =>
    rw [chars_list] at heq
    exact .inr (.inl ⟨(List.cons.inj heq).1, _, rfl, legible⟩)
  | object names values =>
    rw [chars_object] at heq
    exact .inr (.inr ⟨(List.cons.inj heq).1, _, rfl, names, values⟩)

theorem Bare.determined (h : x.Bare) : x.Determined := by
  intro depth y rest rest' hy hrest hrest' heq
  -- another bare value ends at the same place, and the others begin with a mark
  cases hy with
  | bare hy =>
    obtain ⟨hchars, hsame⟩ := h.unmarked.eq_of_append_eq hy.unmarked hrest hrest' heq
    exact ⟨h.alike hy hchars, hsame⟩
  | label closed =>
    rw [chars_label] at heq
    exact (h.chars_append_ne hrest (by decide) heq).elim
  | list legible =>
    rw [chars_list] at heq
    exact (h.chars_append_ne hrest (by decide) heq).elim
  | object names values =>
    rw [chars_object] at heq
    exact (h.chars_append_ne hrest (by decide) heq).elim

theorem determined_label {s : String} (h : '"' ∉ s.toList) : (label s).Determined := by
  intro depth y rest rest' hy hrest hrest' heq
  rw [chars_label] at heq
  rcases hy.of_opening hrest' (by decide) heq with ⟨_, t, rfl, h'⟩ | ⟨hother, _⟩ | ⟨hother, _⟩
  · simp only [chars_label, List.cons_append, List.append_assoc, List.cons.injEq, true_and] at heq
    obtain ⟨rfl, hsame⟩ := eq_of_quoted h h' heq
    exact ⟨.label s, hsame⟩
  · cases hother
  · cases hother

theorem determined_list {items : List Json} (h : ∀ item ∈ items, item.Determined) : (list items).Determined := by
  intro depth y rest rest' hy hrest hrest' heq
  rw [chars_list] at heq
  rcases hy.of_opening hrest' (by decide) heq with ⟨hother, _⟩ | ⟨_, items', rfl, hlegible⟩ | ⟨hother, _⟩
  · cases hother
  · rw [chars_list] at heq
    obtain ⟨halike, hsame⟩ := forall₂_of_body (by decide)
      (fun a ha b hb rest rest' => h a ha (depth + 1) b rest rest' (hlegible b hb)) (List.cons.inj heq).2
    exact ⟨.list halike, hsame⟩
  · cases hother

theorem determined_object {fields : List (String × Json)} (hnames : ∀ field ∈ fields, '"' ∉ field.1.toList)
    (h : ∀ field ∈ fields, field.2.Determined) : (object fields).Determined := by
  intro depth y rest rest' hy hrest hrest' heq
  rw [chars_object] at heq
  rcases hy.of_opening hrest' (by decide) heq with
    ⟨hother, _⟩ | ⟨hother, _⟩ | ⟨_, fields', rfl, hnames', hlegible⟩
  · cases hother
  · cases hother
  · rw [chars_object] at heq
    obtain ⟨halike, hsame⟩ := forall₂_of_body (by decide)
      (fun a ha b hb rest rest' => (h a ha).field (hnames a ha) (hnames' b hb) (hlegible b hb)) (List.cons.inj heq).2
    refine ⟨.object ?_ ?_, hsame⟩
    · rw [← List.forall₂_eq_eq_eq, List.forall₂_map_left_iff, List.forall₂_map_right_iff]
      exact halike.imp fun _ _ h => h.1
    · rw [List.forall₂_map_left_iff, List.forall₂_map_right_iff]
      exact halike.imp fun _ _ h => h.2

/-- A legible value is determined by its text, and a list or an object by that of its parts. -/
theorem Legible.determined (h : x.Legible) : x.Determined := by
  induction h with
  | bare h => exact h.determined
  | label closed => exact determined_label closed
  | list _ ih => exact determined_list ih
  | object names _ ih => exact determined_object names ih

/-- Legible values that are written alike are alike. -/
theorem alike_of_text_eq (hx : x.Legible) (hy : y.Legible) (h : x.text depth = y.text depth) : x.Alike y :=
  (hx.determined depth y [] [] hy follows_nil follows_nil (by rw [chars, chars, h])).1

end Json

end Repaint
