import Repaint.Fault

/-!
# Outcomes

An operation that can be refused ends in `Except`. A chain of them succeeds iff every link does, and what every
link keeps is kept by the chain (`foldlM_rel`).
-/

namespace Repaint

variable {ε α β γ : Type}

@[simp] theorem ok_bind (a : α) (f : α → Except ε β) : ((Except.ok a : Except ε α) >>= f) = f a := rfl

@[simp] theorem error_bind (e : ε) (f : α → Except ε β) :
    ((Except.error e : Except ε α) >>= f) = Except.error e := rfl

@[simp] theorem pure_eq_ok (a : α) : (pure a : Except ε α) = Except.ok a := rfl

theorem bind_eq_ok_iff {x : Except ε α} {f : α → Except ε β} {b : β} :
    (x >>= f) = Except.ok b ↔ ∃ a, x = Except.ok a ∧ f a = Except.ok b := by
  cases x with
  | error e => simp
  | ok a => simp

theorem map_eq_ok_iff {x : Except ε α} {f : α → β} {b : β} :
    x.map f = Except.ok b ↔ ∃ a, x = Except.ok a ∧ f a = b := by
  cases x with
  | error e => simp [Except.map]
  | ok a => simp [Except.map]

/-- A relation to a second run beside the first one, kept by every step that is not refused. -/
theorem foldlM_rel {R : β → γ → Prop} {f : β → α → Except ε β} {g : γ → α → γ} {l : List α} {b b' : β} {c : γ}
    (h : R b c) (hstep : ∀ a ∈ l, ∀ b c b', R b c → f b a = .ok b' → R b' (g c a))
    (hok : l.foldlM f b = .ok b') : R b' (l.foldl g c) := by
  induction l generalizing b c with
  | nil =>
    cases hok
    exact h
  | cons a l ih =>
    obtain ⟨hfirst, hrest⟩ := List.forall_mem_cons.mp hstep
    rw [List.foldlM_cons, bind_eq_ok_iff] at hok
    obtain ⟨mid, hmid, hok⟩ := hok
    exact ih (hfirst b c mid h hmid) hrest hok

end Repaint
