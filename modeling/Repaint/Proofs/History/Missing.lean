import Repaint.Proofs.History.Accumulate
import Repaint.Proofs.History.Annals
import Repaint.Proofs.Region.Program

/-!
# Missing history repaints the screen

A damage query does not ask how many frames there have been. A span that goes back beyond the first push ends in a
frame that is blank, of no size and for surface 0 (`page_of_missing`), and is lost as soon as two neighbours in it
differ. The frames that were pushed may be for surface 0 as well, and may have no width or no height. But if no two
neighbours differ, all frames of the span are as the blank one is, and there is no screen to repaint
(`size_newest_of_missing`).
-/

namespace Repaint

namespace History

variable {h : History} {config : Config} {actions : List Action} {age : Nat}

/-- A frame older than the first push is blank. -/
theorem page_of_missing (hrun : replay config actions = .ok h) (hmissing : actions.countP Action.isPush ≤ age)
    (hage : age ≤ config.maxAge) : (h.frames.get age).page = {} := by
  obtain ⟨hc, hmaxAge⟩ := consistent_of_replay hrun
  have hcapacity := hc.capacity_eq
  rw [(mirrors_of_replay hrun).page age (by omega), List.getElem?_eq_none, Option.getD_none]
  rwa [length_annals]

/-- Frames that were not replaced by each other, back to a blank one, have no size. -/
theorem size_newest_of_missing (hrun : replay config actions = .ok h)
    (hmissing : actions.countP Action.isPush ≤ age) (hage : age ≤ config.maxAge) (hkept : h.lostSince age = false) :
    h.newest.size = Size.zero := by
  have hblank : (h.frames.get age).size = Size.zero := congrArg Page.size (page_of_missing hrun hmissing hage)
  rw [← size_eq_newest hkept (Nat.le_refl age), hblank]

/-- **Missing history repaints the screen.** After every run, whatever its stacks, surfaces and sizes, and however
far it has filled the ring: if the frame of an age was never pushed, the damage of that span is the whole screen. It
is reported as such, unless the screen has no extent. How many frames were pushed is told in the report and makes no
difference to it otherwise. -/
theorem repaintArea_of_missing (hrun : replay config actions = .ok h)
    (hmissing : actions.countP Action.isPush ≤ age) (hage : age ≤ config.maxAge) (blur : Size) :
    ∃ report area newest, h.repaintArea age blur = .ok (report, area) ∧ h.frame 0 = .ok newest ∧
      area.points = newest.bounds.points ∧ (report.full = false → newest.size = Size.zero) ∧
      ∀ pushes, { h with pushes := pushes }.repaintArea age blur = .ok ({ report with frame := pushes }, area) := by
  obtain ⟨hc, hmaxAge⟩ := consistent_of_replay hrun
  have hnone := size_newest_of_missing hrun hmissing hage
  rw [← hmaxAge] at hage
  obtain ⟨changes, hchanges, hsolid, _⟩ := changesSince_spec hc.linksInto age hage
  refine ⟨_, _, h.newest, repaintArea_ok hage hchanges blur, h.frame_zero, ?_, hnone, ?_⟩
  · ext p
    rw [(solid_repainted blur).mem_points, Frame.bounds, Rect.mem_points_ofOrigin]
    cases hlost : h.lostSince age with
    | true => exact covers_repainted_of_lost hlost
    | false =>
      have hpos : 1 ≤ age := by
        rw [Nat.one_le_iff_ne_zero]
        rintro rfl
        cases hlost
      have hscreen : ¬ h.newest.bounds.covers p := by
        rw [Frame.bounds, hnone hlost]
        exact Rect.not_covers_of_isEmpty (by decide +kernel) p
      rw [covers_repainted_of_kept hlost hpos hsolid]
      exact iff_of_false (fun hp => hscreen hp.2) hscreen
  · intro pushes
    exact repaintArea_ok (h := { h with pushes := pushes }) hage hchanges blur

/-- A single frame for the surface that blank frames are for, of no height. -/
def flatRun : List Action := [.push sampleStack 0 ⟨Binary.ofInt 32, 0⟩]

/-- The width alone tells the frame from the blank ones before it. -/
theorem repaintArea_of_missing_flatRun :
    ∃ h report area newest, replay {} flatRun = .ok h ∧ h.repaintArea 3 Size.zero = .ok (report, area) ∧
      h.frame 0 = .ok newest ∧ area.points = newest.bounds.points ∧ report.full = true := by
  have hsize : (replay {} flatRun).map (fun h => h.newest.size) = .ok ⟨Binary.ofInt 32, 0⟩ := by decide +kernel
  obtain ⟨h, hrun, hsize⟩ := map_eq_ok_iff.mp hsize
  obtain ⟨report, area, newest, hok, hnewest, hpoints, hfull, _⟩ :=
    repaintArea_of_missing hrun (show flatRun.countP Action.isPush ≤ 3 by decide) (by decide) Size.zero
  refine ⟨h, report, area, newest, hrun, hok, hnewest, hpoints, ?_⟩
  rw [h.frame_zero, Except.ok.injEq] at hnewest
  rw [← Bool.not_eq_false]
  intro hkept
  have hnone : (⟨Binary.ofInt 32, 0⟩ : Size) = Size.zero := hsize ▸ hnewest ▸ hfull hkept
  exact absurd hnone (by decide +kernel)

end History

end Repaint
