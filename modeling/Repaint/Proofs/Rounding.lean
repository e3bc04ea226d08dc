import Repaint.Proofs.Coordinate
import Mathlib.Data.Int.LeastGreatest

/-!
# Rounded sums

A sum is rounded to the nearest number that is in step with the numbers of its size, and the steps get longer from one
power of two to the next. A power of two is in step with the numbers on either side of it, so rounding takes nothing
past one, and keeps the order (`Format.round_mono`, `Binary.add_le_add`).

* **exact counts** — what is in step already is not rounded (`Binary.ofRatio_one`);
* **reach** — what a stretch holds when it is made longer, however its ends are rounded, depends on the numbers that
  it held and not on its ends (`Binary.between_reaches`). So it makes no difference in how many pieces a stretch is
  made longer.
-/

namespace Repaint

/-! ## Powers of two -/

theorem pow2_pos (exponent : Nat) : 0 < pow2 exponent := Nat.two_pow_pos exponent

theorem pow2_add (a b : Nat) : pow2 (a + b) = pow2 a * pow2 b := Nat.pow_add 2 a b

theorem pow2_dvd_pow2 {low high : Nat} (h : low ≤ high) : pow2 low ∣ pow2 high := Nat.pow_dvd_pow 2 h

theorem pow2_le_pow2 {low high : Nat} (h : low ≤ high) : pow2 low ≤ pow2 high :=
  Nat.pow_le_pow_right Nat.two_pos h

/-! ## Whole numbers -/

theorem nearestWhole_of_dvd {num den : Nat} (hpos : 0 < den) (h : den ∣ num) :
    nearestWhole num den = num / den := by
  have hrest : num % den = 0 := Nat.mod_eq_zero_of_dvd h
  simp only [nearestWhole, hrest, Nat.mul_zero]
  exact if_pos (Or.inl hpos)

theorem nearestWhole_mono {m n : Nat} (den : Nat) (h : m ≤ n) : nearestWhole m den ≤ nearestWhole n den := by
  have hquotient : m / den ≤ n / den := Nat.div_le_div_right h
  have hm := Nat.div_add_mod m den
  have hn := Nat.div_add_mod n den
  simp only [nearestWhole]
  rcases Nat.lt_or_eq_of_le hquotient with hlt | heq
  · -- the quotients are a whole number apart
    split <;> split <;> omega
  · -- the quotients are the same, and the one with the lesser rest is not rounded up alone
    rw [heq] at hm ⊢
    have hrest : m % den ≤ n % den := by omega
    split
    · split <;> omega
    · rw [if_neg (by omega)]

namespace Format

variable {fmt : Format} {m n exponent : Nat}

/-- The count of units that a count of units is rounded to. -/
def round (fmt : Format) (units : Nat) : Nat := nearestWhole units (fmt.spacing units) * fmt.spacing units

/-- What the numbers around `n` are in step with, a power of two that is not below them is in step with too. -/
theorem nearestWhole_pow2_mul_spacing (h : n.log2 ≤ exponent) :
    nearestWhole (pow2 exponent) (fmt.spacing n) * fmt.spacing n = pow2 exponent := by
  have hpos : 0 < fmt.spacing n := pow2_pos _
  have hstep : fmt.spacing n ∣ pow2 exponent := pow2_dvd_pow2 (by omega)
  rw [nearestWhole_of_dvd hpos hstep, Nat.div_mul_cancel hstep]

/-- Rounding goes up to a power of two at most. -/
theorem round_le_pow2 (h : n ≤ pow2 exponent) : fmt.round n ≤ pow2 exponent := by
  have hlog : n.log2 ≤ exponent := by
    rcases Nat.eq_zero_or_pos n with rfl | hpos
    · simp
    · have hlt : n < 2 ^ (exponent + 1) := Nat.lt_of_le_of_lt h (Nat.pow_lt_pow_right (by omega) (by omega))
      have := (Nat.log2_lt (Nat.ne_of_gt hpos)).mpr hlt
      omega
  calc fmt.round n
      ≤ nearestWhole (pow2 exponent) (fmt.spacing n) * fmt.spacing n :=
        Nat.mul_le_mul_right _ (nearestWhole_mono _ h)
    _ = pow2 exponent := nearestWhole_pow2_mul_spacing hlog

/-- Rounding goes down to a power of two at most. -/
theorem pow2_le_round (h : pow2 exponent ≤ n) : pow2 exponent ≤ fmt.round n := by
  have hpos : n ≠ 0 := Nat.ne_of_gt (Nat.lt_of_lt_of_le (pow2_pos exponent) h)
  calc pow2 exponent
      ≤ pow2 n.log2 := pow2_le_pow2 ((Nat.le_log2 hpos).mpr h)
    _ = nearestWhole (pow2 n.log2) (fmt.spacing n) * fmt.spacing n :=
        (nearestWhole_pow2_mul_spacing (Nat.le_refl _)).symm
    _ ≤ fmt.round n := Nat.mul_le_mul_right _ (nearestWhole_mono _ (Nat.log2_self_le hpos))

theorem round_mono (h : m ≤ n) : fmt.round m ≤ fmt.round n := by
  rcases Nat.eq_zero_or_pos m with rfl | hpos
  · simp [round, nearestWhole, pow2_pos, spacing]
  have hlog : m.log2 ≤ n.log2 :=
    (Nat.le_log2 (by omega)).mpr (Nat.le_trans (Nat.log2_self_le (by omega)) h)
  rcases Nat.lt_or_eq_of_le hlog with hlt | heq
  · -- a power of two lies between
    calc fmt.round m
        ≤ pow2 n.log2 := round_le_pow2 (Nat.le_trans (Nat.le_of_lt Nat.lt_log2_self) (pow2_le_pow2 hlt))
      _ ≤ fmt.round n := pow2_le_round (Nat.log2_self_le (by omega))
  · have hspacing : fmt.spacing m = fmt.spacing n := by
      unfold spacing
      rw [heq]
    unfold round
    rw [hspacing]
    exact Nat.mul_le_mul_right _ (nearestWhole_mono _ h)

/-- The count of units that a count of units, below zero or not, is rounded to. -/
def roundInt (fmt : Format) (units : Int) : Int :=
  if units < 0 then -(fmt.round units.natAbs) else fmt.round units.natAbs

theorem roundInt_mono {m n : Int} (h : m ≤ n) : fmt.roundInt m ≤ fmt.roundInt n := by
  unfold roundInt
  split
  · split
    · have := fmt.round_mono (show n.natAbs ≤ m.natAbs by omega)
      omega
    · omega
  · have := fmt.round_mono (show m.natAbs ≤ n.natAbs by omega)
    rw [if_neg (by omega)]
    omega

end Format

namespace Binary

variable {fmt : Format} {a b c d : Binary fmt} {x y : ℝ}

/-! ## Counts of units -/

/-- A count of units is rounded, and infinite from the range of the format on. -/
theorem ofRatio_units (units : Int) : (ofRatio units 1 : Binary fmt) =
    if fmt.roundInt units ≤ -(pow2 fmt.range) then .negInf
    else if pow2 fmt.range ≤ fmt.roundInt units then .posInf
    else .finite (fmt.roundInt units) := by
  have hpos : 0 < pow2 fmt.range := pow2_pos _
  have hunits : (ofRatio units 1 : Binary fmt) =
      if fmt.round units.natAbs < pow2 fmt.range then
        if units < 0 then .finite (-(fmt.round units.natAbs)) else .finite (fmt.round units.natAbs)
      else if units < 0 then .negInf else .posInf := by
    simp only [ofRatio, Nat.div_one, Nat.one_mul]
    rfl
  rw [hunits]
  unfold Format.roundInt
  by_cases hneg : units < 0
  · simp only [if_pos hneg]
    split
    · rw [if_neg (by omega), if_neg (by omega)]
    · rw [if_pos (by omega)]
  · simp only [if_neg hneg]
    split
    · rw [if_neg (by omega), if_neg (by omega)]
    · rw [if_neg (by omega), if_pos (by omega)]

/-- A count of units that is in step with the numbers around it is not rounded. -/
theorem ofRatio_one (units : Int) (hstep : fmt.spacing units.natAbs ∣ units.natAbs)
    (hrange : units.natAbs < pow2 fmt.range) : (ofRatio units 1 : Binary fmt) = .finite units := by
  have hpos : 0 < fmt.spacing units.natAbs := pow2_pos _
  have hround : fmt.round units.natAbs = units.natAbs := by
    rw [Format.round, nearestWhole_of_dvd hpos hstep, Nat.div_mul_cancel hstep]
  have hunits : fmt.roundInt units = units := by
    rw [Format.roundInt, hround]
    split <;> omega
  rw [ofRatio_units, hunits, if_neg (by omega), if_neg (by omega)]

/-- The end of the range is beyond it. -/
theorem ofRatio_range : (ofRatio (pow2 fmt.range) 1 : Binary fmt) = .posInf := by
  have hpos : 0 < pow2 fmt.range := pow2_pos _
  have hround : (pow2 fmt.range : Int) ≤ fmt.roundInt (pow2 fmt.range) := by
    rw [Format.roundInt, if_neg (by omega), Int.natAbs_natCast]
    exact Int.ofNat_le.mpr (Format.pow2_le_round (Nat.le_refl _))
  rw [ofRatio_units, if_neg (by omega), if_pos hround]

theorem ofRatio_neg_range : (ofRatio (-(pow2 fmt.range)) 1 : Binary fmt) = .negInf := by
  have hpos : 0 < pow2 fmt.range := pow2_pos _
  have hround : fmt.roundInt (-(pow2 fmt.range)) ≤ -(pow2 fmt.range) := by
    rw [Format.roundInt, if_pos (by omega), Int.natAbs_neg, Int.natAbs_natCast]
    exact Int.neg_le_neg (Int.ofNat_le.mpr (Format.pow2_le_round (Nat.le_refl _)))
  rw [ofRatio_units, if_pos hround]

/-! ## Order -/

theorem le_refl_of_ne_nan (ha : a ≠ .nan) : a ≤ a := le_def.mpr (Or.inr (agrees_self ha))

theorem ne_nan_of_le (h : a ≤ b) : a ≠ nan ∧ b ≠ nan := by
  constructor
  · rintro rfl
    cases b <;> cases h
  · rintro rfl
    cases a <;> cases h

theorem not_lt_of_le (h : a ≤ b) : ¬ b < a := by
  intro hlt
  obtain ⟨ha, hb⟩ := ne_nan_of_le h
  exact (not_le_iff_lt ha hb).mpr hlt h

theorem le_of_not_lt (ha : a ≠ .nan) (hb : b ≠ .nan) (h : ¬ b < a) : a ≤ b := by
  by_contra hle
  exact h ((not_le_iff_lt ha hb).mp hle)

theorem le_antisymm (h : a ≤ b) (h' : b ≤ a) : a = b := by
  obtain ⟨ha, hb⟩ := ne_nan_of_le h
  exact eq_of_not_lt ha hb (not_lt_of_le h') (not_lt_of_le h)

theorem le_of_lt (h : a < b) : a ≤ b := le_def.mpr (Or.inl h)

theorem min_of_le (h : a ≤ b) : min a b = a := by
  obtain ⟨ha, hb⟩ := ne_nan_of_le h
  rw [min_of_ne_nan ha hb, if_neg (not_lt_of_le h)]

theorem max_of_le (h : a ≤ b) : max a b = b := by
  obtain ⟨ha, hb⟩ := ne_nan_of_le h
  rw [max_of_ne_nan ha hb]
  split
  · rfl
  · exact eq_of_not_lt ha hb ‹_› (not_lt_of_le h)

theorem negInf_le (ha : a ≠ .nan) : .negInf ≤ a := by
  cases a with
  | nan => exact absurd rfl ha
  | _ => rfl

theorem le_posInf (ha : a ≠ .nan) : a ≤ .posInf := by
  cases a with
  | nan => exact absurd rfl ha
  | _ => rfl

theorem finite_le_finite_iff {m n : Int} : (finite m : Binary fmt) ≤ finite n ↔ m ≤ n := by
  rw [le_def]
  show decide (m < n) = true ∨ decide (finite m = (finite n : Binary fmt)) = true ↔ _
  simp only [decide_eq_true_eq, finite.injEq]
  omega

/-- Numbers in order that are not infinitely far apart are finite. -/
theorem finite_of_le (h : a ≤ b) (ha : a ≠ .negInf) (hb : b ≠ .posInf) :
    ∃ m n, a = finite m ∧ b = finite n ∧ m ≤ n := by
  cases a with
  | negInf => exact absurd rfl ha
  | nan => cases b <;> cases h
  | posInf =>
    cases b with
    | posInf => exact absurd rfl hb
    | _ => cases h
  | finite m =>
    cases b with
    | posInf => exact absurd rfl hb
    | finite n => exact ⟨m, n, rfl, rfl, finite_le_finite_iff.mp h⟩
    | _ => cases h

theorem AtMost.of_le (h : b.AtMost x) (hab : a ≤ b) : a.AtMost x := by
  rcases le_def.mp hab with hlt | heq
  · exact h.of_not_lt (ne_nan_of_lt_left hlt) (not_lt_of_lt hlt)
  · rwa [eq_of_agrees heq]

theorem Exceeds.of_le (h : a.Exceeds x) (hab : a ≤ b) : b.Exceeds x := by
  rcases le_def.mp hab with hlt | heq
  · rw [exceeds_iff_not_atMost (ne_nan_of_lt_right hlt)]
    intro hb
    exact (exceeds_iff_not_atMost h.ne_nan).mp h (hb.of_le hab)
  · rwa [← eq_of_agrees heq]

theorem le_trans_of_le (hab : a ≤ b) (hbc : b ≤ c) : a ≤ c := by
  by_contra h
  have hlt : c < a := (not_le_iff_lt (ne_nan_of_le hab).1 (ne_nan_of_le hbc).2).mp h
  obtain ⟨x, hc, ha⟩ := lt_iff_exists_between.mp hlt
  exact (exceeds_iff_not_atMost ha.ne_nan).mp ha ((hc.of_le hbc).of_le hab)

theorem lt_of_lt_of_le (hab : a < b) (hbc : b ≤ c) : a < c := by
  apply (not_le_iff_lt (ne_nan_of_le hbc).2 (ne_nan_of_lt_left hab)).mp
  intro hca
  exact not_lt_of_le (le_trans_of_le hbc hca) hab

theorem lt_of_le_of_lt (hab : a ≤ b) (hbc : b < c) : a < c := by
  apply (not_le_iff_lt (ne_nan_of_lt_right hbc) (ne_nan_of_le hab).1).mp
  intro hca
  exact not_lt_of_le (le_trans_of_le hca hab) hbc

theorem lt_trans (hab : a < b) (hbc : b < c) : a < c := lt_of_lt_of_le hab (le_of_lt hbc)

/-- What is not above the lesser of two numbers is not above either. -/
theorem le_min_iff (ha : a ≠ .nan) (hb : b ≠ .nan) : c ≤ min a b ↔ c ≤ a ∧ c ≤ b := by
  rw [min_of_ne_nan ha hb]
  split
  · rename_i hlt
    exact ⟨fun hc => ⟨le_trans_of_le hc (le_of_lt hlt), hc⟩, And.right⟩
  · rename_i hlt
    exact ⟨fun hc => ⟨hc, le_trans_of_le hc (le_of_not_lt ha hb hlt)⟩, And.left⟩

theorem max_le_iff (ha : a ≠ .nan) (hb : b ≠ .nan) : max a b ≤ c ↔ a ≤ c ∧ b ≤ c := by
  rw [max_of_ne_nan ha hb]
  split
  · rename_i hlt
    exact ⟨fun hc => ⟨le_trans_of_le (le_of_lt hlt) hc, hc⟩, And.right⟩
  · rename_i hlt
    exact ⟨fun hc => ⟨hc, le_trans_of_le (le_of_not_lt hb ha hlt) hc⟩, And.left⟩

/-- The greater of two numbers is not below either, even if the other one is not a number. -/
protected theorem le_max_left (ha : a ≠ .nan) : a ≤ max a b := by
  by_cases hb : b = .nan
  · rw [hb, max_nan]
    exact le_refl_of_ne_nan ha
  · exact ((max_le_iff ha hb).mp (le_refl_of_ne_nan (max_ne_nan ha hb))).1

protected theorem le_max_right (hb : b ≠ .nan) : b ≤ max a b := by
  by_cases ha : a = .nan
  · rw [ha]
    exact le_refl_of_ne_nan hb
  · exact ((max_le_iff ha hb).mp (le_refl_of_ne_nan (max_ne_nan ha hb))).2

protected theorem min_le_right (hb : b ≠ .nan) : min a b ≤ b := by
  by_cases ha : a = .nan
  · rw [ha]
    exact le_refl_of_ne_nan hb
  · exact ((le_min_iff ha hb).mp (le_refl_of_ne_nan (min_ne_nan ha hb))).2

theorem max_le_max (h : a ≤ b) (hc : c ≠ .nan) : max a c ≤ max b c :=
  max_mem (P := (· ≤ max b c)) (le_trans_of_le h (Binary.le_max_left (ne_nan_of_le h).2)) (Binary.le_max_right hc)

/-- What is kept from coming before a number lies beyond it iff it did before. -/
theorem lt_max_self_iff (ha : a ≠ .nan) : a < max b a ↔ a < b := by
  by_cases hb : b = .nan
  · rw [hb]
    exact iff_of_false (Binary.lt_irrefl _) fun h => ne_nan_of_lt_right h rfl
  · rw [max_of_ne_nan hb ha]
    split
    · rename_i hlt
      exact iff_of_false (Binary.lt_irrefl _) (not_lt_of_lt hlt)
    · exact Iff.rfl

theorem min_lt_self_iff (hb : b ≠ .nan) : min a b < b ↔ a < b := by
  by_cases ha : a = .nan
  · subst ha
    exact iff_of_false (Binary.lt_irrefl _) fun h => ne_nan_of_lt_left h rfl
  · rw [min_of_ne_nan ha hb]
    split
    · rename_i hlt
      exact iff_of_false (Binary.lt_irrefl _) (not_lt_of_lt hlt)
    · exact Iff.rfl

/-! ## Sums -/

protected theorem add_comm (a b : Binary fmt) : a + b = b + a := by
  show Binary.add a b = Binary.add b a
  cases a <;> cases b <;> simp only [Binary.add, Int.add_comm]

theorem ofRatio_mono {m n : Int} (h : m ≤ n) : (ofRatio m 1 : Binary fmt) ≤ ofRatio n 1 := by
  have hround := fmt.roundInt_mono h
  have hm : (ofRatio m 1 : Binary fmt) ≠ .nan := ofRatio_ne_nan m 1
  have hn : (ofRatio n 1 : Binary fmt) ≠ .nan := ofRatio_ne_nan n 1
  rw [ofRatio_units] at hm hn ⊢
  rw [ofRatio_units]
  by_cases hlow : fmt.roundInt m ≤ -(pow2 fmt.range)
  · rw [if_pos hlow]
    exact negInf_le hn
  by_cases hhigh : pow2 fmt.range ≤ fmt.roundInt n
  · rw [if_neg (show ¬ fmt.roundInt n ≤ -(pow2 fmt.range) by omega), if_pos hhigh]
    exact le_posInf hm
  rw [if_neg hlow, if_neg (by omega), if_neg (by omega), if_neg hhigh]
  exact finite_le_finite_iff.mpr hround

/-- A positive count of units is not rounded to zero. -/
theorem ofRatio_pos {units : Int} (h : 0 < units) : 0 < (ofRatio units 1 : Binary fmt) := by
  have hround : pow2 0 ≤ fmt.round units.natAbs :=
    Format.pow2_le_round (show (1 : Nat) ≤ units.natAbs by omega)
  have hunit : pow2 0 = 1 := rfl
  have hint : fmt.roundInt units = fmt.round units.natAbs := if_neg (by omega)
  rw [ofRatio_units, hint, if_neg (by omega)]
  split
  · rfl
  · exact decide_eq_true (by omega)

/-- The difference of two numbers that are in order is not rounded to zero. -/
theorem sub_pos_of_lt (h : a < b) : 0 < b - a := by
  cases a with
  | finite m =>
    cases b with
    | finite n =>
      have hmn : m < n := of_decide_eq_true h
      exact ofRatio_pos (by omega)
    | posInf => rfl
    | _ => cases h
  | negInf =>
    cases b with
    | finite n => rfl
    | posInf => rfl
    | _ => cases h
  | _ => cases b <;> cases h

theorem negInf_add (h : negInf + b ≠ nan) : (negInf + b : Binary fmt) = negInf := by
  cases b with
  | nan => exact absurd rfl h
  | posInf => exact absurd rfl h
  | _ => rfl

theorem add_negInf (h : a + negInf ≠ nan) : (a + negInf : Binary fmt) = negInf := by
  cases a with
  | nan => exact absurd rfl h
  | posInf => exact absurd rfl h
  | _ => rfl

theorem posInf_add (h : posInf + b ≠ nan) : (posInf + b : Binary fmt) = posInf := by
  cases b with
  | nan => exact absurd rfl h
  | negInf => exact absurd rfl h
  | _ => rfl

theorem add_posInf (h : a + posInf ≠ nan) : (a + posInf : Binary fmt) = posInf := by
  cases a with
  | nan => exact absurd rfl h
  | negInf => exact absurd rfl h
  | _ => rfl

/-- **Rounded sums keep their order**, as long as there is a sum. -/
theorem add_le_add (hac : a ≤ c) (hbd : b ≤ d) (hab : a + b ≠ nan) (hcd : c + d ≠ nan) : a + b ≤ c + d := by
  by_cases hlow : a = negInf ∨ b = negInf
  · have hsum : a + b = negInf := by
      rcases hlow with rfl | rfl
      · exact negInf_add hab
      · exact add_negInf hab
    rw [hsum]
    exact negInf_le hcd
  by_cases hhigh : c = posInf ∨ d = posInf
  · have hsum : c + d = posInf := by
      rcases hhigh with rfl | rfl
      · exact posInf_add hcd
      · exact add_posInf hcd
    rw [hsum]
    exact le_posInf hab
  rw [not_or] at hlow hhigh
  obtain ⟨k, m, rfl, rfl, hkm⟩ := finite_of_le hac hlow.1 hhigh.1
  obtain ⟨l, n, rfl, rfl, hln⟩ := finite_of_le hbd hlow.2 hhigh.2
  exact ofRatio_mono (by omega)

theorem ne_nan_of_add_ne_nan (h : a + b ≠ nan) : a ≠ nan := by
  intro hnan
  rw [hnan] at h
  exact h rfl

/-- Adding the same number to two others makes no order between them that was not there. -/
theorem lt_of_add_lt_add (h : a + d < b + d) : a < b := by
  have ha := ne_nan_of_lt_left h
  have hb := ne_nan_of_lt_right h
  have hd : d ≠ nan := by
    intro hnan
    rw [hnan] at ha
    cases a <;> exact ha rfl
  by_contra hlt
  have hba : b ≤ a := le_of_not_lt (ne_nan_of_add_ne_nan hb) (ne_nan_of_add_ne_nan ha) hlt
  exact not_lt_of_le (add_le_add hba (le_refl_of_ne_nan hd) hb ha) h

/-! ## Reach -/

theorem neg_ne_nan (ha : a ≠ nan) : -a ≠ nan := by
  cases a with
  | nan => exact absurd rfl ha
  | _ => exact fun h => by cases h

theorem neg_le_neg (h : a ≤ b) : -b ≤ -a := by
  obtain ⟨ha, hb⟩ := ne_nan_of_le h
  by_cases hlow : a = negInf
  · rw [hlow]
    exact le_posInf (neg_ne_nan hb)
  by_cases hhigh : b = posInf
  · rw [hhigh]
    exact negInf_le (neg_ne_nan ha)
  obtain ⟨m, n, rfl, rfl, hmn⟩ := finite_of_le h hlow hhigh
  exact finite_le_finite_iff.mpr (by omega)

/-- What is at most a count of units. -/
theorem atMost_units_iff {units : Int} : a.AtMost ((units : ℝ) / 2 ^ fmt.scale) ↔ a ≤ finite units := by
  cases a with
  | finite m => exact (units_le_iff m units).trans finite_le_finite_iff.symm
  | negInf => exact iff_of_true trivial rfl
  | posInf => exact iff_of_false id (fun h => by cases h)
  | nan => exact iff_of_false id (fun h => by cases h)

/-- What exceeds a count of units is at least the next one. -/
theorem exceeds_units_iff {units : Int} :
    a.Exceeds ((units : ℝ) / 2 ^ fmt.scale) ↔ finite (units + 1) ≤ a := by
  cases a with
  | finite m =>
    have hcut : ¬ (m : ℝ) / 2 ^ fmt.scale ≤ (units : ℝ) / 2 ^ fmt.scale ↔ ¬ m ≤ units :=
      not_congr (units_le_iff m units)
    rw [not_le, not_le] at hcut
    exact hcut.trans finite_le_finite_iff.symm
  | posInf => exact iff_of_true trivial rfl
  | negInf => exact iff_of_false id (fun h => by cases h)
  | nan => exact iff_of_false id (fun h => by cases h)

theorem AtLeast.of_le (h : a.AtLeast x) (hab : a ≤ b) : b.AtLeast x := by
  by_cases hb : b = posInf
  · rw [hb]
    exact trivial
  have ha : a ≠ negInf := by
    rintro rfl
    exact h
  obtain ⟨m, n, rfl, rfl, hmn⟩ := finite_of_le hab ha hb
  exact le_trans h ((units_le_iff m n).mpr hmn)

section Reach

variable {lo hi d' : Binary fmt} {units : Int}

theorem AtLeast.zero_le (hd : d.AtLeast 0) : 0 ≤ d := by
  cases d with
  | posInf => rfl
  | finite n =>
    have hzero : ((0 : Int) : ℝ) / 2 ^ fmt.scale ≤ (n : ℝ) / 2 ^ fmt.scale := by
      rw [Int.cast_zero, zero_div]
      exact hd
    exact finite_le_finite_iff.mpr ((units_le_iff 0 n).mp hzero)
  | negInf => exact hd.elim
  | nan => exact hd.elim

theorem AtMost.sub_ne_nan (ha : a.AtMost x) (hd : d.AtLeast 0) : a - d ≠ nan := by
  have hne : -d ≠ nan := neg_ne_nan (ne_nan_of_le hd.zero_le).2
  cases a with
  | finite units => exact finite_add_ne_nan units hne
  | negInf =>
    cases d with
    | negInf => exact hd.elim
    | nan => exact hd.elim
    | _ => exact fun h => by cases h
  | _ => exact ha.elim

theorem Exceeds.add_ne_nan (ha : a.Exceeds x) (hd : d.AtLeast 0) : a + d ≠ nan := by
  have hne : d ≠ nan := (ne_nan_of_le hd.zero_le).2
  cases a with
  | finite units => exact finite_add_ne_nan units hne
  | posInf =>
    cases d with
    | negInf => exact hd.elim
    | nan => exact hd.elim
    | _ => exact fun h => by cases h
  | _ => exact ha.elim

/-- Moving an end outwards from further left leads further left. -/
theorem AtMost.sub_of_le (h : (b - d).AtMost x) (hab : a ≤ b) (ha : a.AtMost y) (hd : d.AtLeast 0) :
    (a - d).AtMost x := by
  have hself : -d ≤ -d := le_refl_of_ne_nan (neg_ne_nan (ne_nan_of_le hd.zero_le).2)
  exact h.of_le (add_le_add hab hself (ha.sub_ne_nan hd) h.ne_nan)

theorem Exceeds.add_of_le (h : (a + d).Exceeds x) (hab : a ≤ b) (hb : b.Exceeds y) (hd : d.AtLeast 0) :
    (b + d).Exceeds x := by
  have hself : d ≤ d := le_refl_of_ne_nan (ne_nan_of_le hd.zero_le).2
  exact h.of_le (add_le_add hab hself h.ne_nan (hb.add_ne_nan hd))

theorem AtLeast.neg_le (hd : d.AtLeast 0) : -d ≤ d := by
  cases d with
  | posInf => rfl
  | finite n =>
    have hpos : 0 ≤ n := finite_le_finite_iff.mp hd.zero_le
    exact finite_le_finite_iff.mpr (by omega)
  | _ => exact hd.elim

/-- A number that is moved to the left, and stays to the right of another one, is there moved to the right too. -/
theorem exceeds_add_of_not_atMost_sub (h : ¬ (finite units - d).AtMost x) (hd : d.AtLeast 0) :
    (finite units + d).Exceeds x := by
  have hne : d ≠ nan := (ne_nan_of_le hd.zero_le).2
  have hsub : finite units - d ≠ nan := finite_add_ne_nan units (neg_ne_nan hne)
  apply ((exceeds_iff_not_atMost hsub).mpr h).of_le
  exact add_le_add (finite_le_finite_iff.mpr (Int.le_refl units)) hd.neg_le hsub (finite_add_ne_nan units hne)

/-- Every stretch that holds `y` holds `x` once both of its ends are moved outwards by `d` and rounded. -/
def Reaches (d : Binary fmt) (x y : ℝ) : Prop :=
  (∀ e : Binary fmt, e.AtMost y → (e - d).AtMost x) ∧ ∀ e : Binary fmt, e.Exceeds y → (e + d).Exceeds x

theorem Reaches.mono (h : d.Reaches x y) (hd : d.AtLeast 0) (hdd : d ≤ d') : d'.Reaches x y := by
  have hd' : d'.AtLeast 0 := hd.of_le hdd
  constructor
  · intro e he
    apply (h.1 e he).of_le
    exact add_le_add (le_refl_of_ne_nan he.ne_nan) (neg_le_neg hdd) (he.sub_ne_nan hd') (he.sub_ne_nan hd)
  · intro e he
    apply (h.2 e he).of_le
    exact add_le_add (le_refl_of_ne_nan he.ne_nan) hdd (he.add_ne_nan hd) (he.add_ne_nan hd')

/-- Far enough to the left, a sum lies beyond the range of the format. -/
theorem atMost_of_le_neg_range (hd : d.AtLeast 0) (hunits : units ≤ -(pow2 fmt.range)) :
    (finite units - d).AtMost x := by
  have hne : -d ≠ nan := neg_ne_nan (ne_nan_of_le hd.zero_le).2
  have hsum : (finite (-(pow2 fmt.range)) + -0 : Binary fmt) = negInf := by
    show ofRatio (-(pow2 fmt.range) + -0) 1 = _
    rw [Int.neg_zero, Int.add_zero, ofRatio_neg_range]
  have hle : finite units - d ≤ finite (-(pow2 fmt.range)) + -0 := by
    apply add_le_add (finite_le_finite_iff.mpr hunits) (neg_le_neg hd.zero_le) (finite_add_ne_nan units hne)
    rw [hsum]
    exact fun h => by cases h
  rw [hsum] at hle
  exact AtMost.of_le (b := negInf) trivial hle

theorem exceeds_of_range_le (hd : d.AtLeast 0) (hunits : pow2 fmt.range ≤ units) :
    (finite units + d).Exceeds x := by
  have hne : d ≠ nan := (ne_nan_of_le hd.zero_le).2
  have hsum : (finite (pow2 fmt.range) + 0 : Binary fmt) = posInf := by
    show ofRatio (pow2 fmt.range + 0) 1 = _
    rw [Int.add_zero, ofRatio_range]
  have hle : finite (pow2 fmt.range) + 0 ≤ finite units + d := by
    refine add_le_add (finite_le_finite_iff.mpr hunits) hd.zero_le ?_ (finite_add_ne_nan units hne)
    rw [hsum]
    exact fun h => by cases h
  rw [hsum] at hle
  exact Exceeds.of_le (a := posInf) trivial hle

/-- A stretch that reaches a number from its left end does so from a count of units that it holds. -/
theorem exists_start (h : lo < hi) (hd : d.AtLeast 0) (hx : (lo - d).AtMost x) :
    ∃ start : Int, lo ≤ finite start ∧ finite start < hi ∧ (finite start - d).AtMost x := by
  cases lo with
  | finite start => exact ⟨start, le_refl_of_ne_nan (ne_nan_of_lt_left h), h, hx⟩
  | negInf =>
    obtain ⟨bound, hbound⟩ : ∃ bound : Int, ∀ units ≤ bound, finite units < hi := by
      cases hi with
      | finite n => exact ⟨n - 1, fun units hunits => decide_eq_true (by omega)⟩
      | posInf => exact ⟨0, fun _ _ => rfl⟩
      | _ => cases h
    refine ⟨min bound (-(pow2 fmt.range)), rfl, hbound _ (min_le_left _ _), ?_⟩
    exact atMost_of_le_neg_range hd (min_le_right _ _)
  | _ => cases hi <;> cases h

/-- A stretch that reaches a number from its right end does so from a count of units up to there. -/
theorem exists_end (h : finite units < hi) (hd : d.AtLeast 0) (hx : (hi + d).Exceeds x) :
    ∃ stop : Int, finite stop ≤ hi ∧ units < stop ∧ (finite stop + d).Exceeds x := by
  cases hi with
  | finite stop => exact ⟨stop, le_refl_of_ne_nan (ne_nan_of_lt_right h), of_decide_eq_true h, hx⟩
  | posInf =>
    refine ⟨max (units + 1) (pow2 fmt.range), rfl, by omega, ?_⟩
    exact exceeds_of_range_le hd (le_max_right _ _)
  | _ => cases h

/-- What a stretch holds once it is made longer is what can be reached from the numbers that it held. -/
theorem between_reaches (h : lo < hi) (hd : d.AtLeast 0) :
    ((lo - d).AtMost x ∧ (hi + d).Exceeds x) ↔ ∃ y, (lo.AtMost y ∧ hi.Exceeds y) ∧ d.Reaches x y := by
  constructor
  · intro ⟨hleft, hright⟩
    obtain ⟨start, hlo, hstart, hfirst⟩ := exists_start h hd hleft
    obtain ⟨stop, hhi, hlt, hlast⟩ := exists_end hstart hd hright
    -- the last count of units that reaches the number from the left
    obtain ⟨units, ⟨hge, hbefore, hunits⟩, hgreatest⟩ := Int.exists_greatest_of_bdd
      (P := fun units => start ≤ units ∧ units < stop ∧ ((finite units : Binary fmt) - d).AtMost x)
      ⟨stop, fun units hunits => by omega⟩ ⟨start, Int.le_refl _, hlt, hfirst⟩
    have hnext : (finite (units + 1) + d).Exceeds x := by
      rcases Int.lt_or_eq_of_le (Int.add_one_le_of_lt hbefore) with hinside | hend
      · apply exceeds_add_of_not_atMost_sub _ hd
        intro hmore
        have := hgreatest (units + 1) ⟨by omega, hinside, hmore⟩
        omega
      · rw [hend]
        exact hlast
    refine ⟨(units : ℝ) / 2 ^ fmt.scale, ⟨?_, ?_⟩, ?_, ?_⟩
    · exact (atMost_units_iff.mpr (finite_le_finite_iff.mpr hge)).of_le hlo
    · exact (exceeds_units_iff.mpr (finite_le_finite_iff.mpr (by omega))).of_le hhi
    · intro e he
      exact hunits.sub_of_le (atMost_units_iff.mp he) he hd
    · intro e he
      exact hnext.add_of_le (exceeds_units_iff.mp he) he hd
  · intro ⟨y, ⟨hlo, hhi⟩, hreach⟩
    exact ⟨hreach.1 lo hlo, hreach.2 hi hhi⟩

end Reach

end Binary

end Repaint
