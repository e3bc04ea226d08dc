import Repaint.Proofs.History.Annals
import Repaint.Proofs.History.Census
import Repaint.Proofs.History.Windows
import Mathlib.Order.Bounds.Basic

/-!
# How storage grows

A frame is made in the storage of the oldest one, and storage only grows. So the slots of a frame do not tell how many
windows it needed but how many were needed, at most, by the frames that were made in the same storage one after the
other: those that lie whole rounds of the ring apart (`storage_of_replay`). A window that is managed and refused needs a
slot like any other.

* **demands** — what the pushes of a run ask for, and those that one storage has met (`demandsOn`);
* **one push** — its own demand joins those that the oldest frame's storage has met (`demandsOn_newest`), and the others
  grow older with their storage (`demandsOn_older`).
-/

namespace Repaint

/-! ## Demands -/

/-- The slots that an action asks for: one for each managed window of a stack that is pushed. -/
def Action.demand? : Action → Option Nat
  | push stack _ _ => some (stack.countP Window.managed)
  | mark _ _ => none

/-- The demands of a run, that of its first push first. -/
def demands (actions : List Action) : List Nat := actions.filterMap Action.demand?

/-- The demands that the storage of the frame of an age has met, in a ring of so many frames: that of the frame's own
push and those that lie whole rounds before it. -/
def demandsOn (demands : List Nat) (capacity age : Nat) : Set Nat :=
  {demand | ∃ place rounds, place + 1 + age + rounds * capacity = demands.length ∧ demands[place]? = some demand}

theorem demands_eq_foldl (actions : List Action) :
    demands actions = actions.foldl (fun demands action => demands ++ action.demand?.toList) [] := by
  rw [demands, List.filterMap_eq_flatMap_toList, List.flatMap_eq_foldl]

section

variable {demands : List Nat} {capacity age last demand : Nat}

/-- A frame that was never made has met no demand. -/
theorem demandsOn_eq_empty (h : demands.length ≤ age) : demandsOn demands capacity age = ∅ := by
  refine Set.eq_empty_of_forall_notMem ?_
  rintro demand ⟨place, rounds, hlength, _⟩
  have := Nat.zero_le (rounds * capacity)
  omega

/-- The newest frame is made in the storage of the oldest one. -/
theorem demandsOn_newest :
    demandsOn (demands ++ [demand]) (last + 1) 0 = insert demand (demandsOn demands (last + 1) last) := by
  ext other
  simp only [demandsOn, Set.mem_ofPred_eq, Set.mem_insert_iff, List.length_append, List.length_singleton]
  constructor
  · rintro ⟨place, rounds, hlength, hother⟩
    cases rounds with
    | zero =>
      obtain rfl : place = demands.length := by omega
      rw [List.getElem?_concat_length] at hother
      exact .inl (Option.some.inj hother).symm
    | succ rounds =>
      rw [Nat.succ_mul] at hlength
      rw [List.getElem?_append_left (by omega)] at hother
      exact .inr ⟨place, rounds, by omega, hother⟩
  · rintro (rfl | ⟨place, rounds, hlength, hother⟩)
    · exact ⟨demands.length, 0, by omega, List.getElem?_concat_length⟩
    · refine ⟨place, rounds + 1, ?_, ?_⟩
      · rw [Nat.succ_mul]
        omega
      · rwa [List.getElem?_append_left (by omega)]

theorem demandsOn_older : demandsOn (demands ++ [demand]) capacity (age + 1) = demandsOn demands capacity age := by
  ext other
  simp only [demandsOn, Set.mem_ofPred_eq, List.length_append, List.length_singleton]
  refine exists₂_congr fun place rounds => ?_
  constructor
  · rintro ⟨hlength, hother⟩
    rw [List.getElem?_append_left (by omega)] at hother
    exact ⟨by omega, hother⟩
  · rintro ⟨hlength, hother⟩
    exact ⟨by omega, by rwa [List.getElem?_append_left (by omega)]⟩

end

/-! ## One action -/

theorem Frame.capacity_marked (f : Frame) (dirty : Region) : (f.marked dirty).capacity = f.capacity := by
  have hspare : (f.marked dirty).spare = f.spare := by
    unfold Frame.marked
    split <;> rfl
  rw [Frame.capacity, History.length_marked, hspare, Frame.capacity]

namespace History

variable {h h' : History} {config : Config} {actions : List Action} {action : Action} {height reserve : Nat}
variable {asked : List Nat}

theorem capacity_lastLinked (h : History) (stack : List Window) (size : Size) :
    (h.lastLinked stack size).capacity = h.newest.capacity := by
  simp [lastLinked, linkedForward, Frame.capacity]

/-- Every frame has as many slots as there were from the start, or as the largest demand that its storage has met. -/
def Stores (reserve : Nat) (h : History) (demands : List Nat) : Prop :=
  ∀ age < h.capacity, IsGreatest (insert reserve (demandsOn demands h.capacity age)) (h.frames.get age).capacity

theorem stores_start (hok : start config = .ok h) : h.Stores config.reserve [] := by
  intro age _
  have hblank : (Frame.blank config.reserve).capacity = config.reserve := by simp [Frame.blank, Frame.capacity]
  rw [demandsOn_eq_empty (Nat.zero_le age), insert_empty_eq, frames_start hok, hblank]
  exact isGreatest_singleton

theorem Stores.act (hs : Stores reserve h asked) (hc : h.Consistent height) (hok : h.act action = .ok h') :
    Stores reserve h' (asked ++ action.demand?.toList) := by
  have hcapacity := hc.capacity
  cases action with
  | push stack generation size =>
    have hp := hc.pushed hok
    obtain ⟨⟨report, h₁, stack'⟩, hpush, rfl⟩ := map_eq_ok_iff.mp hok
    obtain ⟨last, hlast⟩ : ∃ last, h.capacity = last + 1 := ⟨h.capacity - 1, by omega⟩
    have holdest : h.frames.oldest = h.frames.get last := by
      rw [Ring.oldest_eq_get, show h.frames.capacity = last + 1 from hlast, Nat.add_sub_cancel]
    have hroom := (report_of_push hc.index hpush).2
    rw [length_candidatesOf, holdest, Nat.max_comm] at hroom
    intro age hage
    rw [hp.capacity] at hage ⊢
    show IsGreatest (insert reserve (demandsOn (asked ++ [stack.countP Window.managed]) _ _)) _
    -- the new frame has taken the oldest one's storage; the others have kept theirs
    rcases age with _ | _ | age
    · have hmet := hs last (by omega)
      show IsGreatest _ h₁.newest.capacity
      rw [hlast] at hmet ⊢
      rw [demandsOn_newest, Set.insert_comm, hroom]
      exact hmet.insert _
    · rw [demandsOn_older, hp.last (by omega), capacity_lastLinked]
      exact hs 0 (by omega)
    · rw [demandsOn_older, hp.older (age + 1) (by omega) (by omega)]
      exact hs (age + 1) (by omega)
  | mark stack dirty =>
    have hm := marked_of_act hok
    intro age hage
    rw [hm.capacity] at hage ⊢
    show IsGreatest (insert reserve (demandsOn (asked ++ []) _ _)) _
    rw [List.append_nil]
    rcases age with _ | age
    · show IsGreatest _ h'.newest.capacity
      rw [hm.newest, Frame.capacity_marked]
      exact hs 0 hage
    · rw [hm.older (age + 1) (by omega) hage]
      exact hs (age + 1) hage

/-! ## The run -/

theorem stores_of_replay (hrun : replay config actions = .ok h) : Stores config.reserve h (demands actions) := by
  rw [demands_eq_foldl]
  apply replay_rel (R := Stores config.reserve) ?_ ?_ hrun
  · intro blank hstart
    exact stores_start hstart
  · intro action _ height mid asked mid' hc hs hok
    exact hs.act hc hok

theorem length_demands (actions : List Action) : (demands actions).length = actions.countP Action.isPush := by
  rw [demands, List.length_filterMap_eq_countP]
  refine List.countP_congr fun action _ => ?_
  cases action with
  | push stack generation size => exact Iff.rfl
  | mark stack dirty => exact Iff.rfl

theorem length_demands_of_replay (hrun : replay config actions = .ok h) : (demands actions).length = h.pushes := by
  rw [length_demands, (mirrors_of_replay hrun).pushes, length_annals]

/-- **Storage is as large as its largest demand.** After every run of pushes that go through, and markings, a frame that
is kept has the slots that there were from the start, or as many as the most managed windows among the stacks of those
pushes that were made in its storage: its own and those that lie whole rounds of the ring before it. A frame that was
never made has the slots from the start. The next push reports the slots of its own frame, which are counted alike. -/
theorem storage_of_replay (hrun : replay config actions = .ok h) :
    (demands actions).length = h.pushes ∧
    (∀ age ≤ config.maxAge, ∃ frame, h.frame age = .ok frame ∧
      IsGreatest (insert config.reserve (demandsOn (demands actions) config.capacity age)) frame.capacity ∧
      (h.pushes ≤ age → frame.capacity = config.reserve)) ∧
    ∀ stack generation size report h' stack', h.push stack generation size = .ok (report, h', stack') →
      ∃ frame, h'.frame 0 = .ok frame ∧ report.capacity = frame.capacity ∧
        IsGreatest (insert config.reserve
          (demandsOn (demands actions ++ [stack.countP Window.managed]) config.capacity 0)) report.capacity := by
  have hs := stores_of_replay hrun
  obtain ⟨hc, hmaxAge⟩ := consistent_of_replay hrun
  have hpushes := length_demands_of_replay hrun
  have hcapacity : h.capacity = config.capacity := by rw [hc.capacity_eq, hmaxAge, Config.capacity]
  refine ⟨hpushes, fun age hage => ?_, fun stack generation size report h' stack' hpush => ?_⟩
  · have hgreatest := hs age (by rw [hcapacity]; exact Nat.lt_succ_of_le hage)
    rw [hcapacity] at hgreatest
    refine ⟨_, frame_of_replay hrun hage, hgreatest, fun hnever => ?_⟩
    rw [demandsOn_eq_empty (by omega), insert_empty_eq] at hgreatest
    exact hgreatest.1
  · have hok : h.act (.push stack generation size) = .ok h' := map_eq_ok_iff.mpr ⟨_, hpush, rfl⟩
    obtain ⟨hc', hkept⟩ := hc.act hok
    have hgreatest := hs.act hc hok 0 (by have := hc'.capacity; omega)
    rw [hkept, hcapacity] at hgreatest
    obtain ⟨rfl, _⟩ := report_of_push hc.index hpush
    exact ⟨h'.newest, h'.frame_zero, rfl, hgreatest⟩

/-- In a ring of two the third frame has the three slots of the first one for its two windows. The fourth one has four
slots, one of them for a window that is refused. -/
theorem storage_of_mixedRun :
    ∃ h third report h' stack', replay { maxAge := 1, reserve := 1 } sampleRun = .ok h ∧
      demands sampleRun = [3, 3, 2] ∧ h.frame 0 = .ok third ∧ third.layers.length = 2 ∧ third.capacity = 3 ∧
      h.push mixedStack 7 ⟨Binary.ofInt 32, Binary.ofInt 8⟩ = .ok (report, h', stack') ∧ report.capacity = 4 := by
  have hlayers : (replay { maxAge := 1, reserve := 1 } sampleRun).map (fun h => h.newest.layers.length) = .ok 2 := by
    decide +kernel
  obtain ⟨h, hrun⟩ := replay_sampleRun { maxAge := 1, reserve := 1 } (by decide)
  obtain ⟨_, hframes, hnext⟩ := storage_of_replay hrun
  obtain ⟨third, hthird, hgreatest, _⟩ := hframes 0 (Nat.zero_le _)
  obtain ⟨⟨report, h', stack'⟩, hpush⟩ := push_ok (consistent_of_replay hrun).1.index
    (show DistinctKeys mixedStack ⟨Binary.ofInt 32, Binary.ofInt 8⟩ by decide +kernel) 7
  obtain ⟨fourth, _, _, hreport⟩ := hnext _ _ _ _ _ _ hpush
  have hdemands : demands sampleRun = [3, 3, 2] := rfl
  have hmet : demandsOn [3, 3, 2] 2 0 = {2, 3} := by
    calc demandsOn ([3, 3] ++ [2]) 2 0
      _ = insert 2 (demandsOn ([3] ++ [3]) 2 1) := demandsOn_newest
      _ = insert 2 (demandsOn ([] ++ [3]) 2 0) := by rw [demandsOn_older]; rfl
      _ = insert 2 (insert 3 (demandsOn [] 2 1)) := by rw [demandsOn_newest]
      _ = {2, 3} := by rw [demandsOn_eq_empty (Nat.zero_le 1), insert_empty_eq]
  have hjoined : demandsOn ([3, 3, 2] ++ [4]) 2 0 = {4, 3} := by
    calc demandsOn ([3, 3, 2] ++ [4]) 2 0
      _ = insert 4 (demandsOn ([3, 3] ++ [2]) 2 1) := demandsOn_newest
      _ = insert 4 (demandsOn ([3] ++ [3]) 2 0) := by rw [demandsOn_older]; rfl
      _ = insert 4 (insert 3 (demandsOn ([] ++ [3]) 2 1)) := by rw [demandsOn_newest]; rfl
      _ = {4, 3} := by rw [demandsOn_older, demandsOn_eq_empty (Nat.zero_le 0), insert_empty_eq]
  refine ⟨h, third, report, h', stack', hrun, hdemands, hthird, ?_, hgreatest.unique ?_, hpush, hreport.unique ?_⟩
  · obtain rfl : h.newest = third := Except.ok.inj (h.frame_zero.symm.trans hthird)
    rw [hrun] at hlayers
    exact Except.ok.inj hlayers
  · show IsGreatest (insert 1 (demandsOn [3, 3, 2] 2 0)) 3
    rw [hmet]
    simp [IsGreatest, upperBounds]
  · show IsGreatest (insert 1 (demandsOn ([3, 3, 2] ++ [4]) 2 0)) 4
    rw [hjoined]
    simp [IsGreatest, upperBounds]

end History

end Repaint
