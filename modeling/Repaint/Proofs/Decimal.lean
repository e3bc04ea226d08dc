import Repaint.Binary.Decimal

/-!
# The signs in the text of a number

A whole number is written in digits, and its text determines it (`toString_inj`). A real number is written in digits and
a few other signs (`Binary.numeral_shortest`), and never in digits alone (`Binary.exists_sign_shortest`), so that it is
not taken for a whole one.
-/

namespace Repaint

/-! ## Digits -/

/-- Signs among which there is no digit. -/
theorem notMem_of_isDigit {signs : List Char} (h : signs.any Char.isDigit = false) {c : Char} (hc : c.isDigit = true) :
    c ∉ signs := by
  intro hmem
  rw [List.any_eq_true.mpr ⟨c, hmem, hc⟩] at h
  cases h

theorem isDigit_of_mem_toString {n : Nat} {c : Char} (h : c ∈ (toString n).toList) : c.isDigit = true := by
  rw [Nat.toString_eq_repr, Nat.toList_repr] at h
  exact Nat.isDigit_of_mem_toDigits (by decide) (by decide) h

theorem toString_inj {n m : Nat} (h : toString n = toString m) : n = m := by
  have hdigits : Nat.toDigits 10 n = Nat.toDigits 10 m := by
    rw [← Nat.toList_repr, ← Nat.toList_repr, ← Nat.toString_eq_repr, ← Nat.toString_eq_repr, h]
  rw [← Nat.ofDigitChars_toDigits (b := 10) (n := n) (by decide) (by decide), hdigits,
    Nat.ofDigitChars_toDigits (by decide) (by decide)]

/-! ## Decimals -/

namespace Decimal

/-- The signs in the text of a decimal beside its digits. -/
def signs : List Char := ['.', 'e', '+', '-']

/-- Characters of a decimal. -/
def Numeral (cs : List Char) : Prop := ∀ c ∈ cs, c.isDigit = true ∨ c ∈ signs

variable {cs cs' : List Char} {c : Char}

theorem numeral_nil : Numeral [] := List.forall_mem_nil _

theorem Numeral.append (h : Numeral cs) (h' : Numeral cs') : Numeral (cs ++ cs') :=
  List.forall_mem_append.mpr ⟨h, h'⟩

theorem Numeral.cons (h : Numeral cs) (hc : c.isDigit = true ∨ c ∈ signs) : Numeral (c :: cs) :=
  List.forall_mem_cons.mpr ⟨hc, h⟩

theorem numeral_toString (n : Nat) : Numeral (toString n).toList := fun _ hc => .inl (isDigit_of_mem_toString hc)

theorem numeral_toString_int (z : Int) : Numeral (toString z).toList := by
  cases z with
  | ofNat n => exact numeral_toString n
  | negSucc n =>
    have htext : toString (Int.negSucc n) = "-" ++ toString (n + 1) := rfl
    rw [htext, String.toList_append]
    exact (numeral_toString (n + 1)).cons (.inr (by decide))

theorem numeral_text (d : Decimal) : Numeral d.text.toList := by
  have hdigits := numeral_toString d.digits
  have htake (n : Nat) : Numeral ((toString d.digits).toList.take n) := fun c hc => hdigits c (List.mem_of_mem_take hc)
  have hdrop (n : Nat) : Numeral ((toString d.digits).toList.drop n) := fun c hc => hdigits c (List.mem_of_mem_drop hc)
  have hzeros (n : Nat) : Numeral (List.replicate n '0') := by
    intro c hc
    rw [List.eq_of_mem_replicate hc]
    exact .inl (by decide)
  have hpoint : '.'.isDigit = true ∨ '.' ∈ signs := by decide
  simp only [text, String.toList_ofList]
  split
  · exact (((hzeros _).cons hpoint).cons (by decide)).append hdigits
  · split
    · split
      · exact (hdigits.append (hzeros _)).append ((hzeros 1).cons hpoint)
      · exact (htake _).append ((hdrop _).cons hpoint)
    · refine (((htake 1).append ?_).append ?_).append (numeral_toString_int _)
      · split
        · exact numeral_nil
        · exact (hdrop 1).cons hpoint
      · split
        · exact numeral_nil.cons (by decide)
        · exact (numeral_nil.cons (by decide)).cons (by decide)

/-- A decimal is not written in digits alone. -/
theorem exists_sign (d : Decimal) : ∃ c ∈ d.text.toList, c.isDigit = false := by
  have hpoint : '.'.isDigit = false := by decide
  have hpower : 'e'.isDigit = false := by decide
  simp only [text, String.toList_ofList]
  split
  · exact ⟨'.', by simp, hpoint⟩
  · split
    · split
      · exact ⟨'.', by simp, hpoint⟩
      · exact ⟨'.', by simp, hpoint⟩
    · refine ⟨'e', ?_, hpower⟩
      split <;> split <;> simp

end Decimal

namespace Binary

variable {fmt : Format} {x : Binary fmt}

theorem numeral_shortest (h : x.isFinite = true) : Decimal.Numeral x.shortest.toList := by
  cases x with
  | finite a =>
    rw [shortest]
    split
    · exact ((Decimal.numeral_nil.cons (by decide)).cons (by decide)).cons (by decide)
    · rw [String.toList_append]
      refine Decimal.Numeral.append ?_ (Decimal.numeral_text _)
      split
      · exact Decimal.numeral_nil.cons (by decide)
      · exact Decimal.numeral_nil
  | negInf => cases h
  | posInf => cases h
  | nan => cases h

theorem exists_sign_shortest (h : x.isFinite = true) : ∃ c ∈ x.shortest.toList, c.isDigit = false := by
  cases x with
  | finite a =>
    rw [shortest]
    split
    · exact ⟨'.', by decide, by decide⟩
    · obtain ⟨c, hc, hsign⟩ := (shortestDecimal fmt a.natAbs).exists_sign
      exact ⟨c, by rw [String.toList_append]; exact List.mem_append_right _ hc, hsign⟩
  | negInf => cases h
  | posInf => cases h
  | nan => cases h

end Binary

end Repaint
