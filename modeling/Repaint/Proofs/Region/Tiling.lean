import Repaint.Proofs.Region.Program
import Mathlib.Order.CompletePartialOrder

/-!
# Regions are tilings

The rectangles of a region have area and share no point, whatever was done to it: `run_tiling` says so of every
register after every program. Rectangles that are handed in may be inverted, without end, or have edges that are
not numbers. Only what is moved and not put in order again has to be moved without rounding
(`RegionStep.Unrounded`).

* **clipping** — the parts of a difference lie in different bands (`Rect.apart_minus`), so punching holes keeps
  rectangles apart, and what is left of a new rectangle is apart from the old ones;
* **merging** — a joined rectangle covers what its two halves covered, so it stays apart from the others
  (`apart_absorb`);
* **cutting** — a meet covers no more than the rectangle that was cut, even where the other one has edges that
  are not numbers (`Rect.covers_of_covers_meet`).
-/

namespace Repaint

namespace Rect

variable {a b : Rect} {p : Point}

/-- No point lies in both rectangles. -/
def Apart (a b : Rect) : Prop := ∀ p, a.covers p → ¬ b.covers p

theorem Apart.symm (h : a.Apart b) : b.Apart a := fun p hb ha => h p ha hb

/-- An edge that is not a number cuts nothing off, and a number only cuts. -/
theorem between_of_between_meet {fmt : Format} {lo₁ hi₁ lo₂ hi₂ : Binary fmt} {x : ℝ} (hl₁ : lo₁ ≠ .nan)
    (hh₁ : hi₁ ≠ .nan) (hlo : (max lo₁ lo₂).AtMost x)
    (hhi : (max (min hi₁ hi₂) (max lo₁ lo₂)).Exceeds x) : lo₁.AtMost x ∧ hi₁.Exceeds x := by
  have hmax : max lo₁ lo₂ ≠ .nan := hlo.ne_nan
  have hmin : min hi₁ hi₂ ≠ .nan ∧ ((min hi₁ hi₂).Exceeds x → hi₁.Exceeds x) := by
    by_cases hh₂ : hi₂ = .nan
    · subst hh₂
      rw [Binary.min_nan]
      exact ⟨hh₁, id⟩
    · exact ⟨Binary.min_ne_nan hh₁ hh₂, fun h => ((Binary.exceeds_min hh₁ hh₂).mp h).1⟩
  have hstart : lo₁.AtMost x := by
    by_cases hl₂ : lo₂ = .nan
    · subst hl₂
      rwa [Binary.max_nan] at hlo
    · exact ((Binary.atMost_max hl₁ hl₂).mp hlo).1
  rw [Binary.exceeds_max hmin.1 hmax] at hhi
  rcases hhi with hhi | hhi
  · exact ⟨hstart, hmin.2 hhi⟩
  · exact absurd hlo ((Binary.exceeds_iff_not_atMost hmax).mp hhi)

/-- A rectangle cut with another one, whatever its edges are, covers no more than before. -/
theorem covers_of_covers_meet (ha : a.Numeric) (h : (a.meet b).covers p) : a.covers p :=
  ⟨between_of_between_meet ha.left ha.right h.1.1 h.1.2,
    between_of_between_meet ha.top ha.bottom h.2.1 h.2.2⟩

/-- The parts of a difference are apart: each lies in a band of its own around the hole. -/
theorem apart_minus (ha : a.Numeric) (hb : b.isEmpty = false) : (a.minus b).Pairwise Apart := by
  have hn := numeric_of_isEmpty_eq_false hb
  obtain ⟨hx, hy⟩ := isEmpty_eq_false_iff.mp hb
  -- no point lies both before the hole's start and behind its end
  have hrow (y : ℝ) : b.top.Exceeds y → ¬ b.bottom.AtMost y := fun hstart hend =>
    Binary.not_lt_of_lt hy (Binary.lt_of_atMost_of_exceeds hend hstart)
  have hcolumn (x : ℝ) : b.left.Exceeds x → ¬ b.right.AtMost x := fun hstart hend =>
    Binary.not_lt_of_lt hx (Binary.lt_of_atMost_of_exceeds hend hstart)
  have htop (y : ℝ) := Binary.exceeds_iff_not_atMost (x := y) hn.top
  have hbottom (y : ℝ) := Binary.exceeds_iff_not_atMost (x := y) hn.bottom
  have hparts : ([⟨a.left, a.top, a.right, min b.top a.bottom⟩,
      ⟨a.left, max b.bottom a.top, a.right, a.bottom⟩,
      ⟨a.left, max a.top b.top, min b.left a.right, min a.bottom b.bottom⟩,
      ⟨max b.right a.left, max a.top b.top, a.right, min a.bottom b.bottom⟩] : List Rect).Pairwise
        Apart := by
    simp only [List.pairwise_cons, List.mem_cons, List.not_mem_nil, or_false, forall_eq_or_imp, forall_eq,
      false_implies, implies_true, List.Pairwise.nil, and_true, Apart, covers,
      Binary.atMost_max hn.bottom ha.top, Binary.exceeds_min hn.top ha.bottom,
      Binary.atMost_max ha.top hn.top, Binary.exceeds_min ha.bottom hn.bottom,
      Binary.exceeds_min hn.left ha.right, Binary.atMost_max hn.right ha.left]
    grind
  have hone (c : Prop) [Decidable c] (part : Rect) : (if c then [part] else []).Sublist [part] := by
    split
    · exact List.Sublist.refl _
    · exact List.nil_sublist _
  refine hparts.sublist (((hone _ _).append (hone _ _)).append ?_)
  split
  · exact (hone _ _).append (hone _ _)
  · exact List.nil_sublist _

end Rect

variable {rects others pieces : List Rect} {p : Point}

/-! ## Lists of rectangles that are apart -/

theorem pairwise_apart_cons {r : Rect} : (r :: rects).Pairwise Rect.Apart ↔
    (∀ p, r.covers p → ¬ coversAny rects p) ∧ rects.Pairwise Rect.Apart := by
  rw [List.pairwise_cons]
  refine and_congr_left fun _ => ⟨?_, ?_⟩
  · rintro h p hp ⟨other, hother, hp'⟩
    exact h other hother p hp hp'
  · intro h other hother p hp hp'
    exact h p hp ⟨other, hother, hp'⟩

theorem pairwise_apart_append : (rects ++ others).Pairwise Rect.Apart ↔
    rects.Pairwise Rect.Apart ∧ others.Pairwise Rect.Apart ∧
      ∀ p, coversAny rects p → ¬ coversAny others p := by
  rw [List.pairwise_append]
  refine and_congr_right fun _ => and_congr_right fun _ => ⟨?_, ?_⟩
  · rintro h p ⟨a, ha, hp⟩ ⟨b, hb, hp'⟩
    exact h a ha b hb p hp hp'
  · intro h a ha b hb p hp hp'
    exact h p ⟨a, ha, hp⟩ ⟨b, hb, hp'⟩

/-- Parts of rectangles that are apart are apart when those of each one are. -/
theorem pairwise_apart_flatMap {f : Rect → List Rect} (h : rects.Pairwise Rect.Apart)
    (hparts : ∀ r ∈ rects, (f r).Pairwise Rect.Apart)
    (hin : ∀ r ∈ rects, ∀ part ∈ f r, ∀ p, part.covers p → r.covers p) :
    (rects.flatMap f).Pairwise Rect.Apart := by
  rw [List.pairwise_flatMap]
  refine ⟨hparts, h.imp_of_mem ?_⟩
  intro a b ha hb hapart part hpart part' hpart' p hp hp'
  exact hapart p (hin a ha part hpart p hp) (hin b hb part' hpart' p hp')

theorem pairwise_apart_perm (hperm : rects.Perm others) (h : rects.Pairwise Rect.Apart) :
    others.Pairwise Rect.Apart :=
  hperm.pairwise h fun hapart => Rect.Apart.symm hapart

/-! ## Clipping -/

theorem apart_punch {hole : Rect} (hpieces : ∀ r ∈ pieces, r.Numeric) (hhole : hole.Numeric)
    (h : pieces.Pairwise Rect.Apart) : (punch pieces hole).Pairwise Rect.Apart := by
  cases harea : hole.isEmpty with
  | true => rwa [punch_of_isEmpty hpieces hhole harea]
  | false =>
    -- the pieces that miss the hole and those that it cuts are apart; the parts of the latter lie in them
    have hsplit : (pieces.filter (fun piece => !piece.overlaps hole) ++
        pieces.filter (fun piece => piece.overlaps hole)).Pairwise Rect.Apart := by
      refine pairwise_apart_perm (List.Perm.symm ?_) h
      simpa using List.filter_append_perm (fun piece : Rect => !piece.overlaps hole) pieces
    obtain ⟨hmissed, hcut, hcross⟩ := pairwise_apart_append.mp hsplit
    have hparts : ∀ piece ∈ pieces.filter (fun piece => piece.overlaps hole), ∀ part ∈ piece.minus hole,
        ∀ p, part.covers p → piece.covers p := by
      intro piece hpiece part hpart p hp
      exact ((Rect.covers_minus (hpieces piece (List.mem_filter.mp hpiece).1) hhole).mp
        ⟨part, hpart, hp⟩).1
    unfold punch
    refine pairwise_apart_append.mpr ⟨hmissed, pairwise_apart_flatMap hcut ?_ hparts, ?_⟩
    · intro piece hpiece
      exact Rect.apart_minus (hpieces piece (List.mem_filter.mp hpiece).1) harea
    · rintro p hp ⟨part, hpart, hp'⟩
      obtain ⟨piece, hpiece, hpart⟩ := List.mem_flatMap.mp hpart
      exact hcross p hp ⟨piece, hpiece, hparts piece hpiece part hpart p hp'⟩

theorem apart_foldl_punch (hpieces : ∀ r ∈ pieces, r.Numeric) (hrects : ∀ r ∈ rects, r.Numeric)
    (h : pieces.Pairwise Rect.Apart) : (rects.foldl punch pieces).Pairwise Rect.Apart := by
  induction rects generalizing pieces with
  | nil => exact h
  | cons hole rest ih =>
    obtain ⟨hhole, hrest⟩ := List.forall_mem_cons.mp hrects
    rw [List.foldl_cons]
    exact ih (numeric_punch hpieces hhole) hrest (apart_punch hpieces hhole h)

theorem apart_dropEmpty (h : rects.Pairwise Rect.Apart) : (dropEmpty rects).Pairwise Rect.Apart :=
  h.sublist List.filter_sublist

/-! ## Merging -/

/-- Absorbing neighbours keeps rectangles apart: what is absorbed was apart from the others already. -/
theorem apart_absorb (grown : Rect) (rest : List Rect) (hgrown : grown.isEmpty = false)
    (hrest : ∀ r ∈ rest, r.isEmpty = false) (h : (grown :: rest).Pairwise Rect.Apart) :
    ((absorb grown rest).1 :: (absorb grown rest).2).Pairwise Rect.Apart := by
  fun_induction absorb grown rest with
  | case1 grown => exact h
  | case2 grown r others joined hjoin ih =>
    have hr := hrest r List.mem_cons_self
    obtain ⟨hfirst, hothers⟩ := pairwise_apart_cons.mp h
    obtain ⟨hnext, hothers⟩ := pairwise_apart_cons.mp hothers
    have hperm := perm_fillGap r others
    apply ih
    · exact Rect.isEmpty_join hgrown hr hjoin
    · intro s hs
      exact hrest s (List.mem_cons_of_mem _ (hperm.mem_iff.mp hs))
    · refine pairwise_apart_cons.mpr ⟨fun p hp => ?_, pairwise_apart_perm hperm.symm hothers⟩
      rw [coversAny_fillGap]
      rcases (Rect.covers_join hgrown hr hjoin).mp hp with hp | hp
      · exact fun hp' => hfirst p hp (coversAny_cons.mpr (Or.inr hp'))
      · exact hnext p hp
  | case3 grown r others hjoin result ih =>
    -- the rectangle stays behind, apart from all that the others cover, merged or not
    obtain ⟨hr, hrest⟩ := List.forall_mem_cons.mp hrest
    obtain ⟨hfirst, hothers⟩ := pairwise_apart_cons.mp h
    obtain ⟨hnext, hothers⟩ := pairwise_apart_cons.mp hothers
    have happart : (grown :: others).Pairwise Rect.Apart :=
      pairwise_apart_cons.mpr
        ⟨fun p hp hp' => hfirst p hp (coversAny_cons.mpr (Or.inr hp')), hothers⟩
    have hcov := (absorb_spec grown others hgrown hrest).2.2
    obtain ⟨hfst, hsnd⟩ := pairwise_apart_cons.mp (ih hgrown hrest happart)
    have hbehind : ∀ p, r.covers p → ¬ coversAny (result.1 :: result.2) p := by
      intro p hp hp'
      rw [hcov p, coversAny_cons] at hp'
      rcases hp' with hp' | hp'
      · exact hfirst p hp' (coversAny_cons.mpr (Or.inl hp))
      · exact hnext p hp hp'
    refine pairwise_apart_cons.mpr ⟨fun p hp hp' => ?_, pairwise_apart_cons.mpr ⟨fun p hp hp' => ?_, hsnd⟩⟩
    · rcases coversAny_cons.mp hp' with hp' | hp'
      · exact hbehind p hp' (coversAny_cons.mpr (Or.inl hp))
      · exact hfst p hp hp'
    · exact hbehind p hp (coversAny_cons.mpr (Or.inr hp'))

theorem apart_mergePass (rects : List Rect) (hsolid : ∀ r ∈ rects, r.isEmpty = false)
    (h : rects.Pairwise Rect.Apart) : (mergePass rects).Pairwise Rect.Apart := by
  fun_induction mergePass rects with
  | case1 => exact h
  | case2 r rest ih =>
    obtain ⟨hr, hrest⟩ := List.forall_mem_cons.mp hsolid
    have habsorbed := (absorb_spec r rest hr hrest).2.1
    obtain ⟨hfst, hsnd⟩ := pairwise_apart_cons.mp (apart_absorb r rest hr hrest h)
    refine pairwise_apart_cons.mpr ⟨fun p hp => ?_, ih habsorbed hsnd⟩
    rw [(mergePass_spec _ habsorbed).2 p]
    exact hfst p hp

theorem apart_mergeAll (rects : List Rect) (hsolid : ∀ r ∈ rects, r.isEmpty = false)
    (h : rects.Pairwise Rect.Apart) : (mergeAll rects).Pairwise Rect.Apart := by
  fun_induction mergeAll rects with
  | case1 rects _ ih => exact ih (mergePass_spec rects hsolid).1 (apart_mergePass rects hsolid h)
  | case2 rects _ => exact apart_mergePass rects hsolid h

/-! ## Operations -/

namespace Region

variable {r s : Region} {rect : Rect}

theorem apart_add (hr : r.Numeric) (h : r.rects.Pairwise Rect.Apart) :
    (r.add rect).rects.Pairwise Rect.Apart := by
  cases hempty : rect.normalize.isEmpty with
  | true => rwa [add_of_isEmpty hempty]
  | false =>
    rw [add_eq_mergeAll hempty]
    have hnew : ∀ piece ∈ [rect.normalize], piece.Numeric := by
      simpa using Rect.numeric_of_isEmpty_eq_false hempty
    have hleft := apart_foldl_punch hnew hr (List.pairwise_singleton _ _)
    refine apart_mergeAll _ isEmpty_of_mem_pieces (apart_dropEmpty ?_)
    refine pairwise_apart_append.mpr ⟨h, hleft, fun p hp hp' => ?_⟩
    exact ((coversAny_foldl_punch hnew hr).mp hp').2 hp

theorem apart_remove (hr : r.Numeric) (h : r.rects.Pairwise Rect.Apart) :
    (r.remove rect).rects.Pairwise Rect.Apart := by
  cases hempty : rect.normalize.isEmpty with
  | true => rwa [remove_of_isEmpty hempty]
  | false =>
    rw [remove_eq_punch hempty]
    exact apart_dropEmpty (apart_punch hr (Rect.numeric_of_isEmpty_eq_false hempty) h)

theorem apart_clip (hr : r.Numeric) (h : r.rects.Pairwise Rect.Apart) :
    (r.clip rect).rects.Pairwise Rect.Apart := by
  refine apart_dropEmpty (List.pairwise_map.mpr ?_)
  refine h.imp_of_mem fun {a b} ha hb hapart p hp hp' => ?_
  exact hapart p (Rect.covers_of_covers_meet (hr a ha) hp) (Rect.covers_of_covers_meet (hr b hb) hp')

/-- Every rectangle of the one region is cut into parts by the other, which are as far apart as the rectangles
of the other are. -/
theorem apart_inter (hr : r.Numeric) (hs : s.Numeric) (h : r.rects.Pairwise Rect.Apart)
    (h' : s.rects.Pairwise Rect.Apart) : (r.inter s).rects.Pairwise Rect.Apart := by
  refine pairwise_apart_flatMap h (fun a ha => ?_) (fun a ha part hpart p hp => ?_)
  · refine apart_dropEmpty (List.pairwise_map.mpr (h'.imp_of_mem ?_))
    intro b b' hb hb' hapart p hp hp'
    exact hapart p ((Rect.covers_meet (hr a ha) (hs b hb)).mp hp).2
      ((Rect.covers_meet (hr a ha) (hs b' hb')).mp hp').2
  · obtain ⟨b, _, rfl⟩ := List.mem_map.mp (List.mem_filter.mp hpart).1
    exact Rect.covers_of_covers_meet (hr a ha) hp

end Region

/-- A region whose rectangles have area and are apart. -/
structure Region.Tiling (r : Region) : Prop where
  solid : r.Solid
  apart : r.rects.Pairwise Rect.Apart

namespace Region.Tiling

variable {r s : Region} {rect : Rect} {offset : Vec}

theorem empty : Region.empty.Tiling := ⟨Region.solid_empty, List.Pairwise.nil⟩

theorem add (h : r.Tiling) : (r.add rect).Tiling := ⟨h.solid.add, apart_add h.solid.numeric h.apart⟩

theorem remove (h : r.Tiling) : (r.remove rect).Tiling := ⟨h.solid.remove, apart_remove h.solid.numeric h.apart⟩

theorem clip (h : r.Tiling) : (r.clip rect).Tiling := ⟨Region.solid_clip, apart_clip h.solid.numeric h.apart⟩

theorem inter (h : r.Tiling) (hs : s.Tiling) : (r.inter s).Tiling :=
  ⟨Region.solid_inter, apart_inter h.solid.numeric hs.solid.numeric h.apart hs.apart⟩

theorem moved (h : r.Tiling) (hexact : r.ShiftsExactly offset) : (r.moved offset).Tiling := by
  refine ⟨hexact.solid_moved h.solid, List.pairwise_map.mpr (h.apart.imp_of_mem ?_)⟩
  intro a b ha hb hapart p hp hp'
  exact hapart _ ((hexact a ha).covers_shift.mp hp) ((hexact b hb).covers_shift.mp hp')

end Region.Tiling

/-! ## The run -/

namespace RegionOp

variable {ι : Type}

/-- What the operation leaves where it was moved to is moved without rounding. A rectangle that is added or
removed is put in order after the move, so that rounding does no harm there. -/
def Unrounded (bank : ι → Region) (current : Region) : RegionOp ι → Prop
  | shift offset => current.ShiftsExactly offset
  | interAt other offset => (bank other).ShiftsExactly offset
  | new | ofRect _ | ofRects _ | clear | copy _ | add _ | union _ | unionAt _ _ | remove _ | diff _
  | diffAt _ _ | clip _ | inter _ => True

instance (bank : ι → Region) (current : Region) :
    (op : RegionOp ι) → Decidable (op.Unrounded bank current)
  | shift offset => inferInstanceAs (Decidable (∀ rect ∈ current.rects, rect.ShiftsExactly offset))
  | interAt other offset =>
    inferInstanceAs (Decidable (∀ rect ∈ (bank other).rects, rect.ShiftsExactly offset))
  | new | ofRect _ | ofRects _ | clear | copy _ | add _ | union _ | unionAt _ _ | remove _ | diff _
  | diffAt _ _ | clip _ | inter _ => .isTrue trivial

/-- What an operation preserves. -/
theorem tiling_apply {bank : ι → Region} {r : Region} (hbank : ∀ i, (bank i).Tiling) (h : r.Tiling)
    (op : RegionOp ι) (hunrounded : op.Unrounded bank r) : (op.apply bank r).Tiling := by
  refine op.apply_induction (Q := fun _ => True) Region.Tiling.empty (fun _ _ _ h => h.add) (fun _ _ _ h => h.remove)
    (fun _ _ _ h => h.clip) (fun _ _ h h' => h.inter h') hbank h (fun _ _ => trivial) ?_ ?_
  · intro offset hop
    subst hop
    exact h.moved hunrounded
  · intro other offset hop
    subst hop
    exact (hbank other).moved hunrounded

end RegionOp

namespace RegionStep

variable {ι : Type} [DecidableEq ι]

/-- No step of the program rounds, in the registers that it meets, what it leaves where it was moved to. -/
def Unrounded (bank : ι → Region) : List (RegionStep ι) → Prop
  | [] => True
  | step :: program => step.op.Unrounded bank (bank step.target) ∧ Unrounded (step.exec bank) program

instance decidableUnrounded : (bank : ι → Region) → (program : List (RegionStep ι)) →
    Decidable (Unrounded bank program)
  | _, [] => .isTrue trivial
  | bank, step :: program =>
    have := decidableUnrounded (step.exec bank) program
    inferInstanceAs (Decidable (_ ∧ _))

theorem tiling_exec {bank : ι → Region} (hbank : ∀ i, (bank i).Tiling) (step : RegionStep ι)
    (hunrounded : step.op.Unrounded bank (bank step.target)) (i : ι) : (exec bank step i).Tiling := by
  unfold exec
  by_cases hi : i = step.target
  · subst hi
    rw [Function.update_self]
    exact RegionOp.tiling_apply hbank (hbank step.target) step.op hunrounded
  · rw [Function.update_of_ne hi]
    exact hbank i

theorem tiling_foldl (program : List (RegionStep ι)) {bank : ι → Region} (hbank : ∀ i, (bank i).Tiling)
    (hunrounded : Unrounded bank program) (i : ι) : (program.foldl exec bank i).Tiling := by
  induction program generalizing bank with
  | nil => exact hbank i
  | cons step program ih => exact ih (tiling_exec hbank step hunrounded.1) hunrounded.2

/-- **Regions are tilings.** After a program that rounds nothing it moves, and whatever rectangles it was given,
the rectangles of every register have area and no two of them share a point. -/
theorem run_tiling (program : List (RegionStep ι)) (hunrounded : Unrounded (fun _ => Region.empty) program)
    (i : ι) :
    (∀ rect ∈ (run program i).rects, rect.left < rect.right ∧ rect.top < rect.bottom) ∧
      (run program i).rects.Pairwise (fun a b => Disjoint a.points b.points) := by
  have h : (run program i).Tiling := tiling_foldl program (fun _ => Region.Tiling.empty) hunrounded i
  refine ⟨fun rect hrect => Rect.isEmpty_eq_false_iff.mp (h.solid rect hrect), ?_⟩
  refine h.apart.imp_of_mem fun {a b} ha hb hapart => ?_
  rw [Set.disjoint_left]
  intro p hp hp'
  have hcovers {rect : Rect} (hrect : rect ∈ (run program i).rects) (hp : p ∈ rect.points) : rect.covers p := by
    rw [← Rect.normalize_eq_self (h.solid rect hrect)]
    exact hp
  exact hapart p (hcovers ha hp) (hcovers hb hp')

/-- Half planes, a rectangle the wrong way round and edges that are not numbers, moved and cut. -/
def oddShapes : List (RegionStep Bool) :=
  [⟨false, .ofRects [⟨.negInf, 0, 0, .posInf⟩, ⟨1, 1, -1, -1⟩, ⟨.nan, 0, .nan, 1⟩, ⟨.nan, 0, 1, .posInf⟩]⟩,
    ⟨true, .ofRect ⟨Binary.ofInt 3, Binary.ofInt 2, -1, -1⟩⟩,
    ⟨true, .unionAt false ⟨Binary.ofInt 2, 1⟩⟩,
    ⟨true, .interAt false ⟨1, 1⟩⟩,
    ⟨false, .shift ⟨-1, 0⟩⟩,
    ⟨false, .clip ⟨.nan, 0, .nan, 1⟩⟩,
    ⟨false, .diff true⟩]

theorem run_tiling_oddShapes :
    Unrounded (fun _ => Region.empty) oddShapes ∧
      (∀ rect ∈ (run oddShapes false).rects, rect.left < rect.right ∧ rect.top < rect.bottom) ∧
      (run oddShapes false).rects.Pairwise (fun a b => Disjoint a.points b.points) :=
  have hunrounded : Unrounded (fun _ => Region.empty) oddShapes := by decide +kernel
  ⟨hunrounded, run_tiling oddShapes hunrounded false⟩

end RegionStep

end Repaint
