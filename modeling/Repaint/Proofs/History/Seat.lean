import Repaint.History.Push
import Repaint.Proofs.Outcome
import Mathlib.Data.List.Nodup
import Mathlib.Order.Basic

/-!
# Seating a window stack

Which windows of a stack become layers, and what each layer says, depends on the windows and the size of the
screen alone: nothing of what a reused slot held is left in it.

* `refresh_eq_of_accepted` — an accepted window fills every field of its slot;
* `seat_eq` — with enough slots, seating never fails and its layers are those of the accepted windows, from the
  bottom of the stack to its top (`seated`);
* `countP_key_seated` — a key has as many layers as windows that claim it (`claimants`);
* `seated_window_decreasing`, `seated_window_lt` — the layers' places in the stack decrease with their rank.
-/

namespace Repaint

/-- Whether the window becomes a layer on a screen of this size. -/
def Window.accepted (w : Window) (screen : Size) : Bool := (({} : Layer).refresh w 0 screen).1

/-- The layer that the window at a place of the stack becomes. -/
def Window.toLayer (w : Window) (place : Nat) (screen : Size) : Layer :=
  (({} : Layer).refresh w place screen).2

namespace Layer

variable (l : Layer) (w : Window) (place : Nat) (screen : Size)

/-- The layer with the window's place, shadow and opacities: what decides whether it can be seen. -/
def drawn : Layer := ((l.place w).castShadow w).fade w

/-- The four ways in which filling a layer can end. -/
theorem refresh_cases :
    ((!w.everDamaged || w.paintExcluded) = true ∧ l.refresh w place screen = (false, l)) ∨
    ((!w.everDamaged || w.paintExcluded) = false ∧
      (!(l.place w).hasExtent || (l.place w).isOutside screen) = true ∧
      l.refresh w place screen = (false, l.place w)) ∨
    ((!w.everDamaged || w.paintExcluded) = false ∧
      (!(l.place w).hasExtent || (l.place w).isOutside screen) = false ∧
      (l.drawn w).isTransparent = true ∧ l.refresh w place screen = (false, l.drawn w)) ∨
    ((!w.everDamaged || w.paintExcluded) = false ∧
      (!(l.place w).hasExtent || (l.place w).isOutside screen) = false ∧
      (l.drawn w).isTransparent = false ∧
      l.refresh w place screen = (true, (l.drawn w).adopt w place)) := by
  unfold refresh
  cases hskip : !w.everDamaged || w.paintExcluded with
  | true => exact Or.inl ⟨rfl, by simp⟩
  | false =>
    cases hout : !(l.place w).hasExtent || (l.place w).isOutside screen with
    | true => exact Or.inr (Or.inl ⟨rfl, rfl, by simp [hout]⟩)
    | false =>
      cases hseen : (l.drawn w).isTransparent with
      | true =>
        refine Or.inr (Or.inr (Or.inl ⟨rfl, rfl, rfl, ?_⟩))
        rw [drawn] at hseen
        simp [hout, hseen, drawn]
      | false =>
        refine Or.inr (Or.inr (Or.inr ⟨rfl, rfl, rfl, ?_⟩))
        rw [drawn] at hseen
        simp [hout, hseen, drawn]

/-- A window is accepted iff it may be painted, lies on the screen and can be seen. -/
theorem refresh_fst_eq_true_iff :
    (l.refresh w place screen).1 = true ↔ (!w.everDamaged || w.paintExcluded) = false ∧
      (!(l.place w).hasExtent || (l.place w).isOutside screen) = false ∧
      (l.drawn w).isTransparent = false := by
  rcases refresh_cases l w place screen with ⟨h, hr⟩ | ⟨_, h, hr⟩ | ⟨_, _, h, hr⟩ | ⟨h1, h2, h3, hr⟩
  · simp [hr, h]
  · simp [hr, h]
  · simp [hr, h]
  · simp [hr, h1, h2, h3]

/-- The slot has no part in the decision. -/
theorem refresh_fst : (l.refresh w place screen).1 = w.accepted screen := by
  rw [Bool.eq_iff_iff, Window.accepted, refresh_fst_eq_true_iff, refresh_fst_eq_true_iff]
  exact Iff.rfl

/-- Nothing of what the slot held is left in a layer that a window fills to the end. -/
theorem adopt_drawn (l' : Layer) : (l.drawn w).adopt w place = (l'.drawn w).adopt w place := by
  unfold drawn castShadow
  cases w.shadow with
  | none => rfl
  | some shadow => rfl

theorem refresh_snd_eq_adopt (h : w.accepted screen = true) :
    (l.refresh w place screen).2 = (l.drawn w).adopt w place := by
  rw [← l.refresh_fst w place screen] at h
  rcases refresh_cases l w place screen with ⟨_, hr⟩ | ⟨_, _, hr⟩ | ⟨_, _, _, hr⟩ | ⟨_, _, _, hr⟩
  · rw [hr] at h
    cases h
  · rw [hr] at h
    cases h
  · rw [hr] at h
    cases h
  · rw [hr]

theorem refresh_eq_of_accepted (h : w.accepted screen = true) :
    l.refresh w place screen = (true, w.toLayer place screen) := by
  refine Prod.ext ((l.refresh_fst w place screen).trans h) ?_
  rw [l.refresh_snd_eq_adopt w place screen h, Window.toLayer, refresh_snd_eq_adopt _ _ _ _ h]
  exact l.adopt_drawn w place {}

end Layer

namespace Window

variable {w : Window} {place : Nat} {screen : Size}

theorem toLayer_eq_adopt (h : w.accepted screen = true) :
    w.toLayer place screen = (({} : Layer).drawn w).adopt w place :=
  Layer.refresh_snd_eq_adopt _ _ _ _ h

theorem key_toLayer (h : w.accepted screen = true) : (w.toLayer place screen).key = w.key := by
  rw [toLayer_eq_adopt h]
  rfl

theorem window_toLayer (h : w.accepted screen = true) : (w.toLayer place screen).window = place := by
  rw [toLayer_eq_adopt h]
  rfl

theorem prevRank_toLayer (h : w.accepted screen = true) : (w.toLayer place screen).prevRank = none := by
  rw [toLayer_eq_adopt h]
  rfl

theorem nextRank_toLayer (h : w.accepted screen = true) : (w.toLayer place screen).nextRank = none := by
  rw [toLayer_eq_adopt h]
  rfl

end Window

/-! ## The stack -/

/-- The accepted windows of a stack with their places, from the bottom to the top. -/
def acceptedOf (stack : List Window) (screen : Size) : List (Window × Nat) :=
  (candidatesOf stack).filter (fun entry => entry.1.accepted screen)

/-- The layers of a stack, before they are linked to those of the last frame. -/
def seated (stack : List Window) (screen : Size) : List Layer :=
  (acceptedOf stack screen).map (fun entry => entry.1.toLayer entry.2 screen)

/-- The windows that become layers have keys of their own. -/
def DistinctKeys (stack : List Window) (screen : Size) : Prop :=
  ((acceptedOf stack screen).map (fun entry => entry.1.key)).Nodup

instance (stack : List Window) (screen : Size) : Decidable (DistinctKeys stack screen) :=
  inferInstanceAs (Decidable (List.Nodup _))

/-- Seating does not fail when there is a slot for every window, and uses one slot for each layer. -/
theorem seat_eq (screen : Size) :
    ∀ (windows : List (Window × Nat)) (rank : Nat) (slots : List Layer),
      windows.length ≤ slots.length →
      ∃ spare, seat screen rank windows slots = .ok
          ((windows.filter (fun entry => entry.1.accepted screen)).map
            (fun entry => entry.1.toLayer entry.2 screen), spare) ∧
        (windows.filter (fun entry => entry.1.accepted screen)).length + spare.length =
          slots.length := by
  intro windows
  induction windows with
  | nil => exact fun rank slots _ => ⟨slots, rfl, Nat.zero_add _⟩
  | cons entry windows ih =>
    intro rank slots hlength
    obtain ⟨window, place⟩ := entry
    cases slots with
    | nil => exact absurd hlength (by simp)
    | cons slot spare =>
      have hrest : windows.length ≤ spare.length := Nat.le_of_succ_le_succ hlength
      cases haccept : window.accepted screen with
      | true =>
        obtain ⟨left, hseat, hleft⟩ := ih (rank + 1) spare hrest
        refine ⟨left, ?_, ?_⟩
        · simp only [seat, slot.refresh_eq_of_accepted window place screen haccept, hseat, ok_bind,
            pure_eq_ok, List.filter_cons, haccept, if_true, List.map_cons]
        · simp only [List.filter_cons, haccept, if_true, List.length_cons]
          omega
      | false =>
        -- whatever the refused window wrote, the next one gets the slot
        obtain ⟨layer, hrefresh⟩ : ∃ layer, slot.refresh window place screen = (false, layer) :=
          ⟨_, Prod.ext ((slot.refresh_fst window place screen).trans haccept) rfl⟩
        obtain ⟨left, hseat, hleft⟩ := ih rank (layer :: spare) (Nat.le_succ_of_le hrest)
        refine ⟨left, ?_, ?_⟩
        · simp only [seat, hrefresh, hseat, List.filter_cons, haccept, Bool.false_eq_true, if_false]
        · simpa [List.filter_cons, haccept] using hleft

theorem mem_seated {stack : List Window} {screen : Size} {layer : Layer}
    (h : layer ∈ seated stack screen) :
    ∃ (window : Window) (place : Nat), window.accepted screen = true ∧ layer = window.toLayer place screen := by
  obtain ⟨⟨window, place⟩, hentry, rfl⟩ := List.mem_map.mp h
  exact ⟨window, place, (List.mem_filter.mp hentry).2, rfl⟩

theorem map_key_seated (stack : List Window) (screen : Size) :
    (seated stack screen).map Layer.key =
      (acceptedOf stack screen).map (fun entry => entry.1.key) := by
  rw [seated, List.map_map]
  exact List.map_congr_left fun entry hentry => Window.key_toLayer (List.mem_filter.mp hentry).2

/-- The windows of a stack that become layers of a key. -/
def claimants (stack : List Window) (screen : Size) (key : Key) : Nat :=
  stack.countP (fun w => w.managed && w.accepted screen && w.key = key)

theorem countP_key_acceptedOf (stack : List Window) (screen : Size) (key : Key) :
    (acceptedOf stack screen).countP (fun entry => entry.1.key = key) = claimants stack screen key := by
  let claims (w : Window) : Bool := w.managed && w.accepted screen && w.key = key
  calc (acceptedOf stack screen).countP (fun entry => entry.1.key = key)
    _ = stack.zipIdx.countP (fun entry => claims entry.1) := by
      rw [acceptedOf, candidatesOf, List.countP_filter, List.countP_reverse, List.countP_filter]
      refine List.countP_congr fun entry _ => ?_
      simp only [claims, Bool.and_eq_true]
      tauto
    _ = (stack.zipIdx.map Prod.fst).countP claims := by rw [List.countP_map, Function.comp_def]
    _ = claimants stack screen key := by rw [List.zipIdx_map_fst, claimants]

theorem countP_key_seated (stack : List Window) (screen : Size) (key : Key) :
    (seated stack screen).countP (fun layer => layer.key = key) = claimants stack screen key := by
  rw [← countP_key_acceptedOf, seated, List.countP_map]
  refine List.countP_congr fun entry hentry => ?_
  rw [Function.comp_apply, Window.key_toLayer (List.mem_filter.mp hentry).2]

theorem DistinctKeys.claimants_le {stack : List Window} {screen : Size} (h : DistinctKeys stack screen) (key : Key) :
    claimants stack screen key ≤ 1 := by
  have hcount := List.nodup_iff_count_le_one.mp h key
  rw [List.count, List.countP_map] at hcount
  rw [← countP_key_acceptedOf]
  refine Nat.le_trans (Nat.le_of_eq (List.countP_congr fun entry _ => ?_)) hcount
  simp

theorem map_window_seated (stack : List Window) (screen : Size) :
    (seated stack screen).map Layer.window = (acceptedOf stack screen).map Prod.snd := by
  rw [seated, List.map_map]
  exact List.map_congr_left fun entry hentry => Window.window_toLayer (List.mem_filter.mp hentry).2

/-- Going up through the layers goes up the stack: the places in it decrease. -/
theorem seated_window_decreasing (stack : List Window) (screen : Size) :
    ((seated stack screen).map Layer.window).Pairwise (· > ·) := by
  rw [map_window_seated, acceptedOf, candidatesOf, ← List.filter_reverse, List.filter_filter]
  refine List.Pairwise.sublist (List.filter_sublist.map _) ?_
  rw [List.map_reverse, List.pairwise_reverse, List.zipIdx_map_snd]
  exact List.pairwise_lt_range'

theorem seated_window_lt {stack : List Window} {screen : Size} {layer : Layer}
    (h : layer ∈ seated stack screen) : layer.window < stack.length := by
  have hmem : layer.window ∈ (seated stack screen).map Layer.window := List.mem_map_of_mem h
  rw [map_window_seated] at hmem
  obtain ⟨⟨window, place⟩, hentry, hplace⟩ := List.mem_map.mp hmem
  have hcandidate := List.mem_reverse.mp (List.mem_filter.mp hentry).1
  have := List.snd_lt_of_mem_zipIdx (List.mem_filter.mp hcandidate).1
  omega

end Repaint
