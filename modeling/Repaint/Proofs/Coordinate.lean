import Repaint.Geometry
import Mathlib.Data.Real.Basic
import Mathlib.Tactic.Linarith
import Mathlib.Tactic.Positivity

/-!
# Coordinates on the real line

A number of a binary format cuts the real line in two: the real numbers that it is *at most*, and those that it
*exceeds*. An infinity leaves one side without numbers; not-a-number leaves both without, so that an edge
which is not a number bounds nothing.

* **order** — `a < b` iff some real number lies between, `a` included (`lt_iff_exists_between`);
* **lattice** — `min` and `max` cut the line where the numbers they are taken of do (`atMost_max`,
  `atMost_min`, `exceeds_min`, `exceeds_max`);
* **exact sums** — a sum that was not rounded moves the cut by the real value of what was added
  (`atMost_add`, `exceeds_add`);
* **stretches** — what lies between two numbers that are moved apart is what lies near what was between them
  (`between_stretch`).
-/

namespace Repaint

namespace Binary

variable {fmt : Format} {a b : Binary fmt} {x y : ℝ}

/-- The real number that a finite number is; zero for any other. -/
noncomputable def value : Binary fmt → ℝ
  | .finite a => a / 2 ^ fmt.scale
  | _ => 0

/-- The number is not above a real number. -/
def AtMost : Binary fmt → ℝ → Prop
  | .negInf, _ => True
  | .finite a, x => (a : ℝ) / 2 ^ fmt.scale ≤ x
  | _, _ => False

/-- The number is above a real number. -/
def Exceeds : Binary fmt → ℝ → Prop
  | .posInf, _ => True
  | .finite a, x => x < (a : ℝ) / 2 ^ fmt.scale
  | _, _ => False

/-- The number is not below a real number. -/
def AtLeast : Binary fmt → ℝ → Prop
  | .posInf, _ => True
  | .finite a, x => x ≤ (a : ℝ) / 2 ^ fmt.scale
  | _, _ => False

/-- The order of two counts of units is the order of the real numbers. -/
theorem units_le_iff (a b : Int) :
    (a : ℝ) / 2 ^ fmt.scale ≤ (b : ℝ) / 2 ^ fmt.scale ↔ a ≤ b := by
  rw [div_le_div_iff_of_pos_right (by positivity)]
  exact Int.cast_le

/-! ## Not-a-number -/

theorem AtMost.ne_nan (h : a.AtMost x) : a ≠ .nan := by
  rintro rfl
  exact h

theorem Exceeds.ne_nan (h : a.Exceeds x) : a ≠ .nan := by
  rintro rfl
  exact h

theorem lt_def : a < b ↔ a.lt b = true := Iff.rfl

theorem ne_nan_of_lt_left (h : a < b) : a ≠ .nan := by
  rintro rfl
  cases b <;> cases h

theorem ne_nan_of_lt_right (h : a < b) : b ≠ .nan := by
  rintro rfl
  cases a <;> cases h

/-- Numbers that compare as equal are the same. -/
theorem eq_of_agrees (h : a.agrees b = true) : a = b := by
  cases a <;> simp_all [agrees]

theorem agrees_self (h : a ≠ .nan) : a.agrees a = true := by
  cases a with
  | nan => exact absurd rfl h
  | _ => simp [agrees]

/-! ## Order -/

/-- A number cuts the line: what it does not exceed, it is at most. -/
theorem exceeds_iff_not_atMost (ha : a ≠ .nan) : a.Exceeds x ↔ ¬ a.AtMost x := by
  cases a with
  | negInf => simp [Exceeds, AtMost]
  | finite a => exact not_le.symm
  | posInf => simp [Exceeds, AtMost]
  | nan => exact absurd rfl ha

theorem not_lt_of_lt (h : a < b) : ¬ b < a := by
  rw [lt_def] at h ⊢
  cases a <;> cases b <;> simp_all [Binary.lt]
  omega

protected theorem lt_irrefl (a : Binary fmt) : ¬ a < a := fun h => not_lt_of_lt h h

theorem ne_of_lt (h : a < b) : a ≠ b := by
  rintro rfl
  exact Binary.lt_irrefl _ h

theorem eq_of_not_lt (ha : a ≠ .nan) (hb : b ≠ .nan) (h : ¬ a < b) (h' : ¬ b < a) : a = b := by
  rw [lt_def] at h h'
  cases a <;> cases b <;> simp_all [Binary.lt]
  omega

/-- What a number is at most, it stays at most going up. -/
theorem AtMost.mono (h : a.AtMost x) (hxy : x ≤ y) : a.AtMost y := by
  cases a with
  | finite a => exact le_trans h hxy
  | negInf => exact trivial
  | posInf => exact h
  | nan => exact h

theorem Exceeds.mono (h : a.Exceeds x) (hyx : y ≤ x) : a.Exceeds y := by
  cases a with
  | finite a => exact lt_of_le_of_lt hyx h
  | negInf => exact h
  | posInf => exact trivial
  | nan => exact h

/-- A number that is not above another is at most whatever that one is. -/
theorem AtMost.of_not_lt (ha : a.AtMost x) (hb : b ≠ .nan) (h : ¬ a < b) : b.AtMost x := by
  rw [lt_def] at h
  cases a <;> cases b <;> simp_all [AtMost, Binary.lt]
  exact le_trans ((units_le_iff _ _).mpr h) ha

/-- What a number is at most, another exceeds: the one is below the other. -/
theorem lt_of_atMost_of_exceeds (ha : a.AtMost x) (hb : b.Exceeds x) : a < b := by
  by_contra h
  exact (exceeds_iff_not_atMost hb.ne_nan).mp hb (ha.of_not_lt hb.ne_nan h)

theorem le_def : a ≤ b ↔ a < b ∨ a.agrees b = true := Bool.or_eq_true_iff

theorem not_le_iff_lt (ha : a ≠ .nan) (hb : b ≠ .nan) : ¬ a ≤ b ↔ b < a := by
  rw [le_def, not_or]
  constructor
  · rintro ⟨hlt, hne⟩
    by_contra hlt'
    rw [eq_of_not_lt ha hb hlt hlt'] at hne
    cases b <;> simp_all [agrees]
  · intro hlt
    refine ⟨not_lt_of_lt hlt, fun heq => ?_⟩
    rw [eq_of_agrees heq] at hlt
    exact Binary.lt_irrefl _ hlt

/-- One number is below another iff a real number lies between them, the lower end included. -/
theorem lt_iff_exists_between : a < b ↔ ∃ x, a.AtMost x ∧ b.Exceeds x := by
  constructor
  · intro h
    rw [lt_def] at h
    cases a with
    | negInf =>
      cases b with
      | finite b => exact ⟨(b : ℝ) / 2 ^ fmt.scale - 1, trivial, sub_one_lt _⟩
      | posInf => exact ⟨0, trivial, trivial⟩
      | negInf => cases h
      | nan => cases h
    | finite a =>
      cases b with
      | finite b =>
        have hab : a < b := by simpa [Binary.lt] using h
        refine ⟨(a : ℝ) / 2 ^ fmt.scale, le_refl _, ?_⟩
        exact not_le.mp ((not_congr (units_le_iff b a)).mpr (by omega))
      | posInf => exact ⟨(a : ℝ) / 2 ^ fmt.scale, le_refl _, trivial⟩
      | negInf => cases h
      | nan => cases h
    | posInf => cases b <;> cases h
    | nan => cases b <;> cases h
  · rintro ⟨x, ha, hb⟩
    exact lt_of_atMost_of_exceeds ha hb

/-! ## The lesser and the greater of two -/

@[simp] theorem min_nan (a : Binary fmt) : min a .nan = a := by cases a <;> rfl

@[simp] theorem max_nan (a : Binary fmt) : max a .nan = a := by cases a <;> rfl

theorem min_of_ne_nan (ha : a ≠ .nan) (hb : b ≠ .nan) : min a b = if b < a then b else a := by
  cases a with
  | nan => exact absurd rfl ha
  | _ =>
    cases b with
    | nan => exact absurd rfl hb
    | _ => rfl

theorem max_of_ne_nan (ha : a ≠ .nan) (hb : b ≠ .nan) : max a b = if a < b then b else a := by
  cases a with
  | nan => exact absurd rfl ha
  | _ =>
    cases b with
    | nan => exact absurd rfl hb
    | _ => rfl

protected theorem min_comm (a b : Binary fmt) : min a b = min b a := by
  by_cases ha : a = .nan
  · rw [ha, min_nan]
    rfl
  by_cases hb : b = .nan
  · rw [hb, min_nan]
    rfl
  rw [min_of_ne_nan ha hb, min_of_ne_nan hb ha]
  grind [not_lt_of_lt, eq_of_not_lt]

protected theorem max_comm (a b : Binary fmt) : max a b = max b a := by
  by_cases ha : a = .nan
  · rw [ha, max_nan]
    rfl
  by_cases hb : b = .nan
  · rw [hb, max_nan]
    rfl
  rw [max_of_ne_nan ha hb, max_of_ne_nan hb ha]
  grind [not_lt_of_lt, eq_of_not_lt]

/-- The lesser of two numbers is one of them. -/
theorem min_mem {P : Binary fmt → Prop} (ha : P a) (hb : P b) : P (min a b) := by
  by_cases ha' : a = .nan
  · subst ha'
    exact hb
  by_cases hb' : b = .nan
  · rwa [hb', min_nan]
  rw [min_of_ne_nan ha' hb']
  split
  · exact hb
  · exact ha

theorem max_mem {P : Binary fmt → Prop} (ha : P a) (hb : P b) : P (max a b) := by
  by_cases ha' : a = .nan
  · subst ha'
    exact hb
  by_cases hb' : b = .nan
  · rwa [hb', max_nan]
  rw [max_of_ne_nan ha' hb']
  split
  · exact hb
  · exact ha

/-- Two stretches that both begin before either ends share something. -/
theorem max_lt_min {lo₁ hi₁ lo₂ hi₂ : Binary fmt} (h₁ : lo₁ < hi₁) (h₂ : lo₂ < hi₂) (h₁₂ : lo₁ < hi₂)
    (h₂₁ : lo₂ < hi₁) : max lo₁ lo₂ < min hi₁ hi₂ :=
  max_mem (P := fun lo => lo < min hi₁ hi₂) (min_mem (P := fun hi => lo₁ < hi) h₁ h₁₂)
    (min_mem (P := fun hi => lo₂ < hi) h₂₁ h₂)

theorem min_ne_nan (ha : a ≠ .nan) (hb : b ≠ .nan) : min a b ≠ .nan := min_mem (P := (· ≠ nan)) ha hb

theorem max_ne_nan (ha : a ≠ .nan) (hb : b ≠ .nan) : max a b ≠ .nan := max_mem (P := (· ≠ nan)) ha hb

theorem atMost_max (ha : a ≠ .nan) (hb : b ≠ .nan) :
    (max a b).AtMost x ↔ a.AtMost x ∧ b.AtMost x := by
  rw [max_of_ne_nan ha hb]
  split
  · rename_i h
    exact ⟨fun hx => ⟨hx.of_not_lt ha (not_lt_of_lt h), hx⟩, And.right⟩
  · rename_i h
    exact ⟨fun hx => ⟨hx, hx.of_not_lt hb h⟩, And.left⟩

theorem atMost_min (ha : a ≠ .nan) (hb : b ≠ .nan) :
    (min a b).AtMost x ↔ a.AtMost x ∨ b.AtMost x := by
  rw [min_of_ne_nan ha hb]
  split
  · rename_i h
    exact ⟨Or.inr, fun hx => hx.elim (fun hx => hx.of_not_lt hb (not_lt_of_lt h)) id⟩
  · rename_i h
    exact ⟨Or.inl, fun hx => hx.elim id (fun hx => hx.of_not_lt ha h)⟩

theorem exceeds_min (ha : a ≠ .nan) (hb : b ≠ .nan) :
    (min a b).Exceeds x ↔ a.Exceeds x ∧ b.Exceeds x := by
  rw [exceeds_iff_not_atMost (min_ne_nan ha hb), atMost_min ha hb, exceeds_iff_not_atMost ha,
    exceeds_iff_not_atMost hb, not_or]

theorem exceeds_max (ha : a ≠ .nan) (hb : b ≠ .nan) :
    (max a b).Exceeds x ↔ a.Exceeds x ∨ b.Exceeds x := by
  rw [exceeds_iff_not_atMost (max_ne_nan ha hb), atMost_max ha hb, exceeds_iff_not_atMost ha,
    exceeds_iff_not_atMost hb, not_and_or]

/-- A number that was raised to another one is not below it. -/
theorem min_max_self (ha : a ≠ .nan) (hb : b ≠ .nan) : min a (max b a) = a := by
  rw [min_of_ne_nan ha (max_ne_nan hb ha), max_of_ne_nan hb ha]
  by_cases hlt : b < a
  · rw [if_pos hlt, ite_self]
  · rw [if_neg hlt, if_neg hlt]

theorem max_max_self (ha : a ≠ .nan) (hb : b ≠ .nan) : max a (max b a) = max b a := by
  rw [max_of_ne_nan ha (max_ne_nan hb ha), max_of_ne_nan hb ha]
  by_cases hlt : b < a
  · rw [if_pos hlt, ite_self]
  · rw [if_neg hlt]
    split
    · rfl
    · exact eq_of_not_lt ha hb ‹_› hlt

/-- Putting two numbers in order a second time changes nothing, whatever they are. -/
theorem min_min_max (a b : Binary fmt) : min (min a b) (max a b) = min a b := by
  by_cases ha : a = .nan
  · subst ha
    cases b <;> simp [min, max, Binary.min, Binary.max, Binary.lt, lt_def]
  · by_cases hb : b = .nan
    · subst hb
      cases a <;> simp [min, max, Binary.min, Binary.max, Binary.lt, lt_def]
    · rw [min_of_ne_nan (min_ne_nan ha hb) (max_ne_nan ha hb), min_of_ne_nan ha hb,
        max_of_ne_nan ha hb]
      grind [not_lt_of_lt]

theorem max_min_max (a b : Binary fmt) : max (min a b) (max a b) = max a b := by
  by_cases ha : a = .nan
  · subst ha
    cases b <;> simp [min, max, Binary.min, Binary.max, Binary.lt, lt_def]
  · by_cases hb : b = .nan
    · subst hb
      cases a <;> simp [min, max, Binary.min, Binary.max, Binary.lt, lt_def]
    · rw [max_of_ne_nan (min_ne_nan ha hb) (max_ne_nan ha hb), min_of_ne_nan ha hb,
        max_of_ne_nan ha hb]
      grind [not_lt_of_lt]

/-! ## Sums -/

theorem ofRatio_ne_nan (num : Int) (den : Nat) : (ofRatio num den : Binary fmt) ≠ .nan := by
  simp only [ofRatio]
  split <;> split <;> simp

theorem finite_add_ne_nan (units : Int) (hb : b ≠ .nan) : finite units + b ≠ .nan := by
  cases b with
  | nan => exact absurd rfl hb
  | finite b => exact ofRatio_ne_nan _ _
  | negInf =>
    intro h
    cases h
  | posInf =>
    intro h
    cases h

/-! ## Exact sums -/

@[simp] theorem value_zero : (0 : Binary fmt).value = 0 := by
  show ((0 : Int) : ℝ) / 2 ^ fmt.scale = 0
  simp

@[simp] theorem value_neg (a : Binary fmt) : (-a).value = -a.value := by
  cases a with
  | finite a =>
    show ((-a : Int) : ℝ) / 2 ^ fmt.scale = -((a : ℝ) / 2 ^ fmt.scale)
    rw [Int.cast_neg, neg_div]
  | negInf => exact neg_zero.symm
  | posInf => exact neg_zero.symm
  | nan => exact neg_zero.symm

theorem atLeast_zero : (0 : Binary fmt).AtLeast 0 := value_zero.ge

theorem atLeast_max_zero (a : Binary fmt) : (max a 0).AtLeast 0 := by
  cases a with
  | finite a =>
    by_cases ha : a < 0
    · rw [show max (finite a) 0 = (0 : Binary fmt) from if_pos (decide_eq_true ha)]
      exact atLeast_zero
    · rw [show max (finite a) 0 = (finite a : Binary fmt) from if_neg (by simpa [lt_def, Binary.lt] using ha)]
      have : (0 : ℝ) ≤ a := by exact_mod_cast not_lt.mp ha
      show (0 : ℝ) ≤ a / 2 ^ fmt.scale
      positivity
  | negInf => exact atLeast_zero
  | posInf => exact trivial
  | nan => exact atLeast_zero

/-- Whether a sum is the one of the real numbers: nothing is rounded, and what is added is finite. -/
def addsExactly : Binary fmt → Binary fmt → Bool
  | .finite a, .finite b => decide (finite a + finite b = (finite (a + b) : Binary fmt))
  | .negInf, .finite _ => true
  | .posInf, .finite _ => true
  | _, _ => false

theorem ne_nan_of_addsExactly (h : a.addsExactly b = true) : a ≠ .nan := by
  rintro rfl
  cases h

theorem add_ne_nan_of_addsExactly (h : a.addsExactly b = true) : a + b ≠ .nan := by
  cases a <;> cases b <;> try cases h
  case finite.finite a b => exact ofRatio_ne_nan _ _
  case negInf.finite b =>
    intro hnan
    cases hnan
  case posInf.finite b =>
    intro hnan
    cases hnan

theorem isFinite_of_addsExactly (h : a.addsExactly b = true) : b.isFinite = true := by
  cases b with
  | finite b => rfl
  | _ => cases a <;> cases h

theorem atLeast_iff_le_value (h : a.isFinite = true) : a.AtLeast x ↔ x ≤ a.value := by
  cases a with
  | finite a => exact Iff.rfl
  | _ => cases h

theorem atMost_add (h : a.addsExactly b = true) : (a + b).AtMost x ↔ a.AtMost (x - b.value) := by
  cases a <;> cases b <;> try cases h
  case finite.finite a b =>
    rw [of_decide_eq_true h]
    simp only [AtMost, value]
    rw [le_sub_iff_add_le, Int.cast_add, add_div]
  case negInf.finite b => exact Iff.rfl
  case posInf.finite b => exact Iff.rfl

theorem exceeds_add (h : a.addsExactly b = true) :
    (a + b).Exceeds x ↔ a.Exceeds (x - b.value) := by
  cases a <;> cases b <;> try cases h
  case finite.finite a b =>
    rw [of_decide_eq_true h]
    simp only [Exceeds, value]
    rw [sub_lt_iff_lt_add, Int.cast_add, add_div]
  case negInf.finite b => exact Iff.rfl
  case posInf.finite b => exact Iff.rfl

/-! ## Stretches -/

/-- A stretch of the line that is made longer at both ends holds what is near a number that it held. -/
theorem between_grow {lo hi : Binary fmt} {x d : ℝ} (h : lo < hi) (hd : 0 ≤ d) :
    (lo.AtMost (x + d) ∧ hi.Exceeds (x - d)) ↔ ∃ y, (lo.AtMost y ∧ hi.Exceeds y) ∧ |x - y| ≤ d := by
  constructor
  · rintro ⟨hlo, hhi⟩
    -- some number lies between; it is brought as near to `x` as need be
    obtain ⟨y, hloy, hhiy⟩ := lt_iff_exists_between.mp h
    rcases lt_or_ge y (x - d) with hbefore | hbefore
    · exact ⟨x - d, ⟨hloy.mono hbefore.le, hhi⟩, by rw [sub_sub_cancel, abs_of_nonneg hd]⟩
    rcases lt_or_ge (x + d) y with hbehind | hbehind
    · exact ⟨x + d, ⟨hlo, hhiy.mono hbehind.le⟩, by rw [sub_add_cancel_left, abs_neg, abs_of_nonneg hd]⟩
    · exact ⟨y, ⟨hloy, hhiy⟩, abs_le.mpr ⟨by linarith, by linarith⟩⟩
  · rintro ⟨y, ⟨hlo, hhi⟩, hnear⟩
    obtain ⟨hbelow, habove⟩ := abs_le.mp hnear
    exact ⟨hlo.mono (by linarith), hhi.mono (by linarith)⟩

/-- Whether a stretch gets longer at both ends without rounding. An infinite amount takes finite ends beyond all
numbers. -/
def stretchesExactly (lo hi d : Binary fmt) : Bool :=
  lo.addsExactly (-d) && hi.addsExactly d || decide (d = .posInf) && lo.isFinite && hi.isFinite

section Stretch

variable {lo hi d : Binary fmt}

theorem stretchesExactly_iff : stretchesExactly lo hi d = true ↔
    (lo.addsExactly (-d) = true ∧ hi.addsExactly d = true) ∨
      d = .posInf ∧ ∃ a b, lo = finite a ∧ hi = finite b := by
  have hfinite (e : Binary fmt) : e.isFinite = true ↔ ∃ a, e = finite a := by cases e <;> simp [isFinite]
  simp only [stretchesExactly, Bool.or_eq_true, Bool.and_eq_true, decide_eq_true_eq, hfinite, and_assoc,
    exists_and_left, exists_and_right]

/-- The ends of an exact stretch are numbers, before and after. -/
theorem ne_nan_of_stretchesExactly (h : stretchesExactly lo hi d = true) :
    (lo ≠ .nan ∧ hi ≠ .nan) ∧ lo - d ≠ .nan ∧ hi + d ≠ .nan := by
  rcases stretchesExactly_iff.mp h with ⟨hlo, hhi⟩ | ⟨rfl, a, b, rfl, rfl⟩
  · exact ⟨⟨ne_nan_of_addsExactly hlo, ne_nan_of_addsExactly hhi⟩, add_ne_nan_of_addsExactly hlo,
      add_ne_nan_of_addsExactly hhi⟩
  · show ((finite a : Binary fmt) ≠ nan ∧ (finite b : Binary fmt) ≠ nan) ∧ (negInf : Binary fmt) ≠ nan ∧ posInf ≠ nan
    simp

/-- An exact stretch holds what is as near as it was made longer to a number that it held. -/
theorem between_stretch {x : ℝ} (h : lo < hi) (hd : d.AtLeast 0) (hexact : stretchesExactly lo hi d = true) :
    ((lo - d).AtMost x ∧ (hi + d).Exceeds x) ↔ ∃ y, (lo.AtMost y ∧ hi.Exceeds y) ∧ d.AtLeast |x - y| := by
  rcases stretchesExactly_iff.mp hexact with ⟨hlo, hhi⟩ | ⟨rfl, a, b, rfl, rfl⟩
  · simp only [atLeast_iff_le_value (isFinite_of_addsExactly hhi)] at hd ⊢
    rw [← between_grow h hd, show lo - d = lo + -d from rfl, atMost_add hlo, exceeds_add hhi, value_neg,
      sub_neg_eq_add]
  · obtain ⟨y, hy⟩ := lt_iff_exists_between.mp h
    exact iff_of_true ⟨trivial, trivial⟩ ⟨y, hy, trivial⟩

end Stretch

end Binary

end Repaint
