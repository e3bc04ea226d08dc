import Repaint.Proofs.Region.Whole

/-!
# Counting in rounded arithmetic

Whole numbers with no more bits than a format keeps are not rounded, and neither are their sums and products as long as
those have no more (`Format.wholes`, `2^53` for doubles). Beyond that rounding loses count, but takes nothing back
below: a sum of products of whole numbers that comes out below the limit is the exact one
(`Binary.Counted.eq_ofInt_of_lt`).

* **exact** — `Binary.ofInt_add`, `Binary.ofInt_mul`;
* **beyond** — a number from the limit on stays there when something is added, and when it is multiplied with a number
  that is not below one (`Binary.wholes_le_add`, `Binary.wholes_le_mul`);
* **both at once** — `Binary.Counted` says how a count and a number go together, and sums and products keep it
  (`Binary.Counted.add`, `Binary.Counted.mul`).
-/

namespace Repaint

theorem nearestWhole_mul_right (num den : Nat) {k : Nat} (hk : 0 < k) :
    nearestWhole (num * k) (den * k) = nearestWhole num den := by
  simp only [nearestWhole, Nat.mul_div_mul_right _ _ hk, Nat.mul_mod_mul_right, ← Nat.mul_assoc,
    Nat.mul_lt_mul_right hk, Nat.mul_left_inj (Nat.ne_of_gt hk)]

namespace Binary

variable {fmt : Format} {a b : Binary fmt} {m n : Int}

/-! ## Quotients -/

/-- A quotient that comes out even is rounded like the whole number that it is. -/
theorem ofRatio_mul_self (num : Int) {den : Nat} (hden : 0 < den) :
    (ofRatio (num * den) den : Binary fmt) = ofRatio num 1 := by
  have hsign : num * den < 0 ↔ num < 0 := by
    constructor
    · intro h
      by_contra hnum
      have := Int.mul_nonneg (not_lt.mp hnum) (Int.natCast_nonneg den)
      omega
    · intro h
      exact Int.mul_neg_of_neg_of_pos h (Int.natCast_pos.mpr hden)
  simp only [ofRatio, Int.natAbs_mul, Int.natAbs_natCast, Nat.mul_div_cancel _ hden, Nat.div_one, Nat.one_mul,
    Nat.mul_comm den, nearestWhole_mul_right _ _ hden, hsign]

/-- A quotient is not rounded down past a power of two. -/
theorem pow2_le_ofRatio {num den exponent : Nat} (hden : 0 < den) (h : pow2 exponent * den ≤ num) :
    (finite (pow2 exponent) : Binary fmt) ≤ ofRatio num den := by
  have hquotient : pow2 exponent ≤ num / den := (Nat.le_div_iff_mul_le hden).mpr h
  have hpos : num / den ≠ 0 := Nat.ne_of_gt (Nat.lt_of_lt_of_le (pow2_pos exponent) hquotient)
  have hunits : pow2 exponent ≤
      nearestWhole num (den * fmt.spacing (num / den)) * fmt.spacing (num / den) :=
    calc pow2 exponent
        ≤ pow2 (num / den).log2 := pow2_le_pow2 ((Nat.le_log2 hpos).mpr hquotient)
      _ = nearestWhole (pow2 (num / den).log2) (fmt.spacing (num / den)) * fmt.spacing (num / den) :=
        (Format.nearestWhole_pow2_mul_spacing (Nat.le_refl _)).symm
      _ = nearestWhole (pow2 (num / den).log2 * den) (fmt.spacing (num / den) * den) * fmt.spacing (num / den) := by
        rw [nearestWhole_mul_right _ _ hden]
      _ ≤ nearestWhole num (den * fmt.spacing (num / den)) * fmt.spacing (num / den) := by
        rw [Nat.mul_comm den]
        apply Nat.mul_le_mul_right
        apply nearestWhole_mono
        exact (Nat.le_div_iff_mul_le hden).mp (Nat.log2_self_le hpos)
  simp only [ofRatio, Int.natAbs_natCast, if_neg (Int.not_lt.mpr (Int.natCast_nonneg num))]
  split
  · exact finite_le_finite_iff.mpr (Int.ofNat_le.mpr hunits)
  · exact le_posInf (fun h => by cases h)

/-! ## Whole numbers -/

/-- The number is a whole one. -/
def Whole (a : Binary fmt) : Prop := ∃ whole : Int, a = .finite (whole * pow2 fmt.scale)

theorem whole_iff_isSome : a.Whole ↔ a.toInt?.isSome = true := by
  cases a with
  | finite units =>
    simp only [toInt?, Whole, finite.injEq]
    split
    · rename_i h
      refine iff_of_true ⟨units / pow2 fmt.scale, ?_⟩ rfl
      exact (Int.ediv_mul_cancel (Int.dvd_of_emod_eq_zero h)).symm
    · rename_i h
      refine iff_of_false ?_ (by simp)
      intro ⟨whole, hwhole⟩
      rw [hwhole] at h
      exact h (Int.mul_emod_left _ _)
  | _ => exact iff_of_false (fun ⟨_, h⟩ => by cases h) (by simp [toInt?])

instance (a : Binary fmt) : Decidable a.Whole := decidable_of_iff _ whole_iff_isSome.symm

theorem value_whole (n : Int) : (finite (n * pow2 fmt.scale) : Binary fmt).value = n := by
  have hscale : ((pow2 fmt.scale : Int) : ℝ) = 2 ^ fmt.scale := by
    show (((Nat.pow 2 fmt.scale : Nat) : Int) : ℝ) = 2 ^ fmt.scale
    rw [Int.cast_natCast, Nat.pow_eq, Nat.cast_pow, Nat.cast_ofNat]
  show ((n * pow2 fmt.scale : Int) : ℝ) / 2 ^ fmt.scale = n
  rw [Int.cast_mul, hscale, mul_div_cancel_right₀ _ (by positivity)]

theorem ofInt_eq (n : Int) : (ofInt n : Binary fmt) = ofRatio (n * pow2 fmt.scale) 1 := rfl

theorem ofInt_mono (h : m ≤ n) : (ofInt m : Binary fmt) ≤ ofInt n :=
  ofRatio_mono (Int.mul_le_mul_of_nonneg_right h (Int.natCast_nonneg _))

/-- The difference of two whole numbers is rounded from their exact difference. -/
theorem whole_sub_whole (m n : Int) :
    (finite (m * pow2 fmt.scale) - finite (n * pow2 fmt.scale) : Binary fmt) = ofInt (m - n) := by
  show ofRatio (m * pow2 fmt.scale + -(n * pow2 fmt.scale)) 1 = _
  rw [ofInt_eq, Int.sub_mul, Int.sub_eq_add_neg]

theorem ne_nan_of_mul_ne_nan (h : a * b ≠ nan) : a ≠ nan ∧ b ≠ nan := by
  constructor
  · intro ha
    rw [ha] at h
    exact h rfl
  · intro hb
    rw [hb] at h
    cases a <;> exact h rfl

protected theorem mul_comm (a b : Binary fmt) : a * b = b * a := by
  show Binary.mul a b = Binary.mul b a
  cases a <;> cases b <;> simp only [Binary.mul, Int.mul_comm]

theorem add_ne_nan_of_nonneg (ha : 0 ≤ a) (hb : 0 ≤ b) : a + b ≠ nan := by
  cases a with
  | finite m => exact finite_add_ne_nan m (ne_nan_of_le hb).2
  | posInf =>
    cases b with
    | finite n => exact fun h => by cases h
    | posInf => exact fun h => by cases h
    | _ => cases hb
  | _ => cases ha

theorem zero_mul_of_ne_nan (h : 0 * b ≠ nan) : 0 * b = 0 := by
  cases b with
  | finite n =>
    show ofRatio (0 * n) (pow2 fmt.scale) = 0
    rw [Int.zero_mul, ← Int.zero_mul (pow2 fmt.scale), ofRatio_mul_self _ (pow2_pos fmt.scale)]
    exact ofRatio_one 0 (Nat.dvd_zero _) (pow2_pos fmt.range)
  | _ => exact absurd rfl h

theorem posInf_mul (hb : 0 < b) : posInf * b = posInf := by
  cases b with
  | finite n =>
    have hn : n.sign = 1 := Int.sign_eq_one_of_pos (of_decide_eq_true hb)
    show infinityOfSign (1 * n.sign) = posInf
    rw [hn]
    rfl
  | posInf => rfl
  | _ => cases hb

/-- What has a length in both directions has an area. -/
theorem mul_ne_nan_of_pos (ha : 0 < a) (hb : 0 < b) : a * b ≠ nan := by
  cases a with
  | finite m =>
    cases b with
    | finite n => exact ofRatio_ne_nan _ _
    | posInf =>
      rw [Binary.mul_comm, posInf_mul ha]
      exact fun h => by cases h
    | _ => cases hb
  | posInf =>
    rw [posInf_mul hb]
    exact fun h => by cases h
  | _ => cases ha

end Binary

/-! ## Up to the last whole number -/

/-- Up to here every whole number is one of the format. -/
def Format.wholes (fmt : Format) : Nat := pow2 fmt.precision

namespace Binary

section Wholes

-- the format's range goes beyond its last whole number
variable {fmt : Format} {a b : Binary fmt} {m n : Int} (hrange : fmt.precision + fmt.scale < fmt.range)

include hrange

/-- No whole number up to there is rounded. -/
theorem ofInt_exact (h : n.natAbs ≤ fmt.wholes) : (ofInt n : Binary fmt) = finite (n * pow2 fmt.scale) := by
  rcases Nat.lt_or_eq_of_le h with hlt | heq
  · exact ofRatio_whole (Nat.le_of_lt hrange) hlt
  · have hunits : (n * pow2 fmt.scale : Int).natAbs = pow2 (fmt.precision + fmt.scale) := by
      rw [Int.natAbs_mul, Int.natAbs_natCast, heq, pow2_add, Format.wholes]
    apply ofRatio_one
    · rw [hunits]
      apply pow2_dvd_pow2
      have hlog : (pow2 (fmt.precision + fmt.scale)).log2 = fmt.precision + fmt.scale := Nat.log2_two_pow
      omega
    · rw [hunits]
      exact Nat.pow_lt_pow_right (by omega) hrange

theorem value_ofInt (h : n.natAbs ≤ fmt.wholes) : (ofInt n : Binary fmt).value = n := by
  rw [ofInt_exact hrange h, value_whole]

theorem ofInt_add (hm : m.natAbs ≤ fmt.wholes) (hn : n.natAbs ≤ fmt.wholes) :
    (ofInt m + ofInt n : Binary fmt) = ofInt (m + n) := by
  rw [ofInt_exact hrange hm, ofInt_exact hrange hn, ofInt_eq, Int.add_mul]
  rfl

theorem ofInt_mul (hm : m.natAbs ≤ fmt.wholes) (hn : n.natAbs ≤ fmt.wholes) :
    (ofInt m * ofInt n : Binary fmt) = ofInt (m * n) := by
  rw [ofInt_exact hrange hm, ofInt_exact hrange hn, ofInt_eq, ← ofRatio_mul_self _ (pow2_pos fmt.scale)]
  show ofRatio (m * pow2 fmt.scale * (n * pow2 fmt.scale)) (pow2 fmt.scale) = _
  rw [← Int.mul_assoc, Int.mul_right_comm m]

theorem ofInt_wholes : (ofInt fmt.wholes : Binary fmt) = finite (pow2 (fmt.precision + fmt.scale)) := by
  rw [ofInt_exact hrange (Nat.le_of_eq (Int.natAbs_natCast _)), pow2_add, Format.wholes, Nat.cast_mul]

theorem ofInt_zero : (ofInt 0 : Binary fmt) = 0 := by
  rw [ofInt_exact hrange (Nat.zero_le _), Int.zero_mul]
  rfl

theorem zero_le_wholes : 0 ≤ (ofInt fmt.wholes : Binary fmt) := by
  rw [← ofInt_zero hrange]
  exact ofInt_mono (Int.natCast_nonneg _)

/-- What is added to a number from the limit on leaves it there. -/
theorem wholes_le_add (ha : 0 ≤ a) (hb : ofInt fmt.wholes ≤ b) : ofInt fmt.wholes ≤ a + b := by
  have hself : (0 + ofInt fmt.wholes : Binary fmt) = ofInt fmt.wholes := by
    rw [← ofInt_zero hrange, ofInt_add hrange (Nat.zero_le _) (Nat.le_of_eq (Int.natAbs_natCast _)), Int.zero_add]
  have hsum : a + b ≠ nan := add_ne_nan_of_nonneg ha (le_trans_of_le (zero_le_wholes hrange) hb)
  have hne : (0 + ofInt fmt.wholes : Binary fmt) ≠ nan := by
    rw [hself]
    exact (ne_nan_of_le hb).1
  have h := add_le_add ha hb hne hsum
  rwa [hself] at h

/-- A product with a number that is not below one does not fall below the limit. -/
theorem wholes_le_mul (ha : 1 ≤ a) (hb : ofInt fmt.wholes ≤ b) : ofInt fmt.wholes ≤ a * b := by
  have hone : (finite 0 : Binary fmt) < 1 := decide_eq_true (Int.natCast_pos.mpr (pow2_pos fmt.scale))
  have hapos : 0 < a := lt_of_lt_of_le hone ha
  have hbpos : 0 < b := by
    refine lt_of_lt_of_le ?_ hb
    rw [ofInt_wholes hrange]
    exact decide_eq_true (Int.natCast_pos.mpr (pow2_pos _))
  rw [ofInt_wholes hrange] at hb ⊢
  cases a with
  | finite u =>
    cases b with
    | finite v =>
      have hu : pow2 fmt.scale ≤ u := finite_le_finite_iff.mp ha
      have hv : pow2 (fmt.precision + fmt.scale) ≤ v := finite_le_finite_iff.mp hb
      obtain ⟨u, rfl⟩ := Int.eq_ofNat_of_zero_le (Int.le_trans (Int.natCast_nonneg _) hu)
      obtain ⟨v, rfl⟩ := Int.eq_ofNat_of_zero_le (Int.le_trans (Int.natCast_nonneg _) hv)
      apply pow2_le_ofRatio (pow2_pos fmt.scale)
      rw [Nat.mul_comm u]
      exact Nat.mul_le_mul (Int.ofNat_le.mp hv) (Int.ofNat_le.mp hu)
    | posInf =>
      rw [Binary.mul_comm, posInf_mul hapos]
      rfl
    | _ => cases hb
  | posInf =>
    rw [posInf_mul hbpos]
    exact le_posInf fun h => by cases h
  | _ => cases ha

end Wholes

/-! ## Counts -/

/-- How a number goes with a count: it is the count, or both lie beyond the whole numbers of the format. -/
inductive Counted {fmt : Format} (count : Nat) : Binary fmt → Prop
  | exact (h : count < fmt.wholes) : Counted count (ofInt count)
  | beyond {sum : Binary fmt} (h : fmt.wholes ≤ count) (hsum : ofInt fmt.wholes ≤ sum) : Counted count sum

namespace Counted

variable {fmt : Format} {a b : Binary fmt} {m n : Nat}

theorem ofInt (n : Nat) : Counted n (Binary.ofInt n : Binary fmt) := by
  rcases Nat.lt_or_ge n fmt.wholes with hlt | hge
  · exact exact hlt
  · exact beyond hge (ofInt_mono (Int.ofNat_le.mpr hge))

/-- A number that came out below the limit is the count. -/
theorem eq_ofInt_of_lt (h : Counted n a) (ha : a < Binary.ofInt fmt.wholes) :
    n < fmt.wholes ∧ a = Binary.ofInt n := by
  cases h with
  | exact h => exact ⟨h, rfl⟩
  | beyond h hsum => exact absurd ha (not_lt_of_le hsum)

/-- A count below the limit is the number. -/
theorem eq_ofInt (h : Counted n a) (hn : n < fmt.wholes) : a = Binary.ofInt n := by
  cases h with
  | exact h => rfl
  | beyond h hsum => omega

variable (hrange : fmt.precision + fmt.scale < fmt.range)

include hrange

theorem nonneg (h : Counted n a) : 0 ≤ a := by
  cases h with
  | exact h =>
    rw [← ofInt_zero hrange]
    exact ofInt_mono (Int.natCast_nonneg n)
  | beyond h hsum => exact le_trans_of_le (zero_le_wholes hrange) hsum

/-- A number that goes with a count other than zero is not below one. -/
theorem one_le (h : Counted n a) (hn : 0 < n) : 1 ≤ a := by
  have hwholes : 0 < fmt.wholes := pow2_pos fmt.precision
  have hone : (Binary.ofInt 1 : Binary fmt) = 1 := by
    rw [ofInt_exact hrange (show (1 : Int).natAbs ≤ fmt.wholes from hwholes), Int.one_mul]
    rfl
  rw [← hone]
  cases h with
  | exact h => exact ofInt_mono (by omega)
  | beyond h hsum => exact le_trans_of_le (ofInt_mono (by omega)) hsum

/-- Whether the limit is reached can be read off either. -/
theorem lt_wholes_iff (h : Counted n a) : a < Binary.ofInt fmt.wholes ↔ n < fmt.wholes := by
  refine ⟨fun ha => (h.eq_ofInt_of_lt ha).1, fun hn => ?_⟩
  have hpos : (0 : Int) < pow2 fmt.scale := Int.natCast_pos.mpr (pow2_pos fmt.scale)
  have hsmall : (n : Int).natAbs ≤ fmt.wholes := Nat.le_of_lt hn
  rw [h.eq_ofInt hn, ofInt_exact hrange hsmall, ofInt_exact hrange (Nat.le_of_eq (Int.natAbs_natCast _))]
  exact decide_eq_true (Int.mul_lt_mul_of_pos_right (Int.ofNat_lt.mpr hn) hpos)

theorem add (ha : Counted m a) (hb : Counted n b) : Counted (m + n) (a + b) := by
  have hanonneg := ha.nonneg hrange
  have hbnonneg := hb.nonneg hrange
  cases hb with
  | beyond h hsum => exact beyond (by omega) (wholes_le_add hrange hanonneg hsum)
  | exact hn =>
    cases ha with
    | beyond h hsum =>
      rw [Binary.add_comm]
      exact beyond (by omega) (wholes_le_add hrange hbnonneg hsum)
    | exact hm =>
      rw [ofInt_add hrange (by omega) (by omega)]
      exact Counted.ofInt (m + n)

/-- A product with a number beyond the limit, if it is a number, is beyond the limit or zero. -/
theorem mul_beyond (ha : Counted m a) (hn : fmt.wholes ≤ n) (hb : Binary.ofInt fmt.wholes ≤ b) (hab : a * b ≠ nan) :
    Counted (m * n) (a * b) := by
  rcases Nat.eq_zero_or_pos m with hzero | hpos
  · subst hzero
    have ha : a = 0 := (ha.eq_ofInt (pow2_pos fmt.precision)).trans (ofInt_zero hrange)
    subst ha
    rw [zero_mul_of_ne_nan hab, Nat.zero_mul, ← ofInt_zero hrange]
    exact Counted.ofInt 0
  · exact beyond (Nat.le_trans hn (Nat.le_mul_of_pos_left n hpos)) (wholes_le_mul hrange (ha.one_le hrange hpos) hb)

theorem mul (ha : Counted m a) (hb : Counted n b) (hab : a * b ≠ nan) : Counted (m * n) (a * b) := by
  cases hb with
  | beyond hn hsum => exact ha.mul_beyond hrange hn hsum hab
  | exact hn =>
    cases ha with
    | beyond hm hsum =>
      rw [Binary.mul_comm] at hab ⊢
      rw [Nat.mul_comm]
      exact (exact hn).mul_beyond hrange hm hsum hab
    | exact hm =>
      rw [ofInt_mul hrange (by omega) (by omega)]
      exact Counted.ofInt (m * n)

end Counted

end Binary

end Repaint
