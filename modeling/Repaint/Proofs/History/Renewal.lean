import Repaint.Proofs.History.Run

/-!
# A frame is made of its stack alone

A push fills the storage of the oldest frame again, and a window that is refused leaves the slot half written to the
next one. None of it shows: the layers of the new frame are those that the windows of the stack, walked from the bottom
to the top, become in blank slots (`freshLayers`), each linked to the rank that its window had.

* **the walk** — seating in reused slots gives the layers of blank ones (`seated_eq_freshLayers`);
* **two histories** — ranks are all that a push reads of the last frame, so two histories whose newest frames have the
  same keys take the same pushes, and get the same layers from them (`Consistent.linkedLayers_eq`,
  `Consistent.push_ok_of_keys`), whatever else they hold;
* **the push** — `push_renews`.
-/

namespace Repaint

/-! ## The walk -/

/-- The layer that the window at a place of the stack becomes in a blank slot. There is none if the window is not
managed or is refused. -/
def Window.extract? (w : Window) (place : Nat) (screen : Size) : Option Layer :=
  if w.managed then
    match ({} : Layer).refresh w place screen with
    | (true, layer) => some layer
    | (false, _) => none
  else none

/-- The layers of a stack, walked from its last window to its first one, in a blank slot for each. -/
def freshLayers (stack : List Window) (screen : Size) : List Layer :=
  stack.zipIdx.reverse.filterMap (fun entry => entry.1.extract? entry.2 screen)

theorem Window.extract?_eq (w : Window) (place : Nat) (screen : Size) :
    w.extract? place screen = if w.managed && w.accepted screen then some (w.toLayer place screen) else none := by
  unfold Window.extract?
  cases w.managed with
  | false => rfl
  | true =>
    cases haccept : w.accepted screen with
    | true =>
      rw [({} : Layer).refresh_eq_of_accepted w place screen haccept]
      rfl
    | false =>
      have hrefused := (({} : Layer).refresh_fst w place screen).trans haccept
      rw [show ({} : Layer).refresh w place screen = (false, _) from Prod.ext hrefused rfl]
      rfl

/-- Seating keeps what the walk keeps. -/
theorem seated_eq_freshLayers (stack : List Window) (screen : Size) :
    seated stack screen = freshLayers stack screen := by
  rw [seated, acceptedOf, candidatesOf, freshLayers, ← List.filter_reverse, List.filter_filter]
  induction stack.zipIdx.reverse with
  | nil => rfl
  | cons entry entries ih =>
    rw [List.filterMap_cons, Window.extract?_eq, List.filter_cons, Bool.and_comm entry.1.managed]
    cases entry.1.accepted screen && entry.1.managed with
    | true => exact congrArg (_ :: ·) ih
    | false => exact ih

namespace History

variable {h h' other : History} {height otherHeight : Nat} {stack : List Window} {size : Size}

/-- Links aside, the layers of a push are those of its stack. -/
theorem map_setPrev_linkedLayers (h : History) (stack : List Window) (size : Size) :
    (h.linkedLayers stack size).map (fun layer => layer.setPrev none) = seated stack size := by
  rw [linkedLayers, linkedBack, List.map_map]
  refine (List.map_congr_left fun layer hlayer => ?_).trans (List.map_id _)
  obtain ⟨window, place, haccept, rfl⟩ := mem_seated hlayer
  exact Layer.setPrev_self (Window.prevRank_toLayer haccept)

/-! ## Two histories -/

theorem Consistent.get?_eq_of_keys (hc : h.Consistent height) (ho : other.Consistent otherHeight)
    (hkeys : other.newest.layers.map Layer.key = h.newest.layers.map Layer.key) (key : Key) :
    other.index.get? key = h.index.get? key := by
  rw [ho.index.ranks, hc.index.ranks]
  exact topRank?_congr hkeys key

theorem Consistent.linkedLayers_eq (hc : h.Consistent height) (ho : other.Consistent otherHeight)
    (hkeys : other.newest.layers.map Layer.key = h.newest.layers.map Layer.key) (stack : List Window) (size : Size) :
    other.linkedLayers stack size = h.linkedLayers stack size := by
  refine List.map_congr_left fun layer _ => ?_
  rw [hc.get?_eq_of_keys ho hkeys]

/-- Nothing but the keys of the newest frame decides whether a push goes through. -/
theorem Consistent.push_ok_of_keys (hc : h.Consistent height) (ho : other.Consistent otherHeight)
    (hkeys : other.newest.layers.map Layer.key = h.newest.layers.map Layer.key) {generation : UInt64}
    {result : PushReport × History × List Window} (hok : h.push stack generation size = .ok result) :
    ∃ result', other.push stack generation size = .ok result' := by
  rcases push_cases ho.index stack generation size with ⟨hother, _⟩ | ⟨key, _, hnew, hmany⟩
  · exact hother
  rcases push_cases hc.index stack generation size with ⟨_, hfew⟩ | ⟨_, hrefused, _⟩
  · rw [hc.get?_eq_of_keys ho hkeys] at hnew
    have := hfew key hnew
    omega
  · rw [hok] at hrefused
    cases hrefused

/-! ## The push -/

variable {config : Config} {actions : List Action}

/-- **A frame is made of its stack alone.** After every run, let a push go through. Links to the past aside, the layers
of the new frame are those of the stack in blank slots, and each is linked to the rank that the index had for its key.
Any other history, whatever it keeps and has been through, takes the same push if its newest frame has the same keys,
and gets the same layers. -/
theorem push_renews (hrun : replay config actions = .ok h) {generation : UInt64} {report : PushReport}
    {stack' : List Window} (hpush : h.push stack generation size = .ok (report, h', stack')) :
    ∃ before after, h.frame 0 = .ok before ∧ h'.frame 0 = .ok after ∧
      after.layers.map (fun layer => layer.setPrev none) = freshLayers stack size ∧
      (∀ layer ∈ after.layers, layer.prevRank = h.rank? layer.key) ∧
      ∀ config₂ actions₂ other before₂, replay config₂ actions₂ = .ok other → other.frame 0 = .ok before₂ →
        before₂.layers.map Layer.key = before.layers.map Layer.key →
        ∃ report₂ other' stack₂ after₂, other.push stack generation size = .ok (report₂, other', stack₂) ∧
          other'.frame 0 = .ok after₂ ∧ after₂.layers = after.layers := by
  obtain ⟨hc, _⟩ := consistent_of_replay hrun
  have hp := pushed_of_push hc.index hpush
  refine ⟨h.newest, h'.newest, h.frame_zero, h'.frame_zero, ?_, ?_, ?_⟩
  · rw [hp.layers, map_setPrev_linkedLayers, seated_eq_freshLayers]
  · intro layer hlayer
    rw [hp.layers] at hlayer
    obtain ⟨fresh, _, rfl⟩ := List.mem_map.mp hlayer
    rfl
  · intro config₂ actions₂ other before₂ hrun₂ hbefore hkeys
    obtain ⟨ho, _⟩ := consistent_of_replay hrun₂
    rw [other.frame_zero] at hbefore
    cases hbefore
    obtain ⟨⟨report₂, other', stack₂⟩, hpush₂⟩ := hc.push_ok_of_keys ho hkeys hpush
    refine ⟨report₂, other', stack₂, other'.newest, hpush₂, other'.frame_zero, ?_⟩
    rw [(pushed_of_push ho.index hpush₂).layers, hp.layers, hc.linkedLayers_eq ho hkeys]

/-- A window that cannot be seen, with a shadow that it leaves in its slot. -/
def ghostWindow : Window :=
  { sampleWindow 5 8 8 with opacity := 0, shadow := some ⟨⟨1, 1⟩, ⟨Binary.ofInt 8, Binary.ofInt 8⟩⟩ }

/-- A new window and a ghost before those of the last frame. -/
def ghostStack : List Window := sampleWindow 4 16 8 :: ghostWindow :: sampleStack

/-- The last frame of `sampleRun` again, after one with other windows. -/
def strangerRun : List Action :=
  let screen : Size := ⟨Binary.ofInt 32, Binary.ofInt 8⟩
  let strangers := [sampleWindow 8 0 4, { sampleWindow 7 2 8 with shadow := ghostWindow.shadow }, sampleWindow 6 4 8]
  [.push strangers 3 screen, .push sampleStack 7 screen]

/-- The same stack is pushed on a ring of six frames and on one of two, whose slots hold other windows. -/
theorem push_renews_sampleRun :
    ∃ h other report₁ h₁ stack₁ report₂ h₂ stack₂ after₁ after₂,
      replay {} sampleRun = .ok h ∧ replay { maxAge := 1, reserve := 4 } strangerRun = .ok other ∧
      h.push ghostStack 7 ⟨Binary.ofInt 32, Binary.ofInt 8⟩ = .ok (report₁, h₁, stack₁) ∧
      other.push ghostStack 7 ⟨Binary.ofInt 32, Binary.ofInt 8⟩ = .ok (report₂, h₂, stack₂) ∧
      h₁.frame 0 = .ok after₁ ∧ h₂.frame 0 = .ok after₂ ∧ after₂.layers = after₁.layers ∧
      after₁.layers.map (fun layer => layer.setPrev none) =
        freshLayers ghostStack ⟨Binary.ofInt 32, Binary.ofInt 8⟩ := by
  have hkeys : (replay {} sampleRun).map (fun h => h.newest.layers.map Layer.key) = .ok [⟨3⟩, ⟨2⟩] := by
    decide +kernel
  have hother : (replay { maxAge := 1, reserve := 4 } strangerRun).map
      (fun h => h.newest.layers.map Layer.key) = .ok [⟨3⟩, ⟨2⟩] := by decide +kernel
  obtain ⟨h, hrun, hkeys⟩ := map_eq_ok_iff.mp hkeys
  obtain ⟨other, hrun₂, hkeys₂⟩ := map_eq_ok_iff.mp hother
  obtain ⟨hc, _⟩ := consistent_of_replay hrun
  obtain ⟨⟨report₁, h₁, stack₁⟩, hpush⟩ := push_ok hc.index
    (show DistinctKeys ghostStack ⟨Binary.ofInt 32, Binary.ofInt 8⟩ by decide +kernel) 7
  obtain ⟨before, after₁, hbefore, hafter, hfresh, _, hsame⟩ := push_renews hrun hpush
  rw [h.frame_zero] at hbefore
  cases hbefore
  obtain ⟨report₂, h₂, stack₂, after₂, hpush₂, hafter₂, hlayers⟩ :=
    hsame _ strangerRun other _ hrun₂ other.frame_zero (hkeys₂.trans hkeys.symm)
  exact ⟨h, other, report₁, h₁, stack₁, report₂, h₂, stack₂, after₁, after₂, hrun, hrun₂, hpush, hpush₂, hafter,
    hafter₂, hlayers, hfresh⟩

end History

end Repaint
