import Repaint.History.Track
import Repaint.Proofs.History.Stale

/-!
# Queries are refused for their arguments alone

Links are ranks, and nothing in a layer says how many layers the neighbouring frame has. The oldest frame that is kept
still has its links to one that was overwritten, and a key that stands twice sends several links to one layer. All the
same, every link that a query reads is found in the frame where it is looked up:

* **links** — a link between two frames that are kept leads to a layer (`Linked.prev_lt`, `Linked.next_lt`);
* **walks** — from a layer that is there, following links never fails (`trackOlder_ok`, `trackNewer_ok`, each by
  induction over the frames on the way);
* **queries** — so a query is refused for an age that is not kept, or for a rank that its first frame does not have,
  and says so (`queries_refused_iff`).
-/

namespace Repaint

/-- The age of the frame that a walk starts from. -/
def Direction.startAge (age : Nat) : Direction → Nat
  | .older => 0
  | .newer => age

namespace History

variable {h : History} {height age rank : Nat}

/-! ## Walks -/

/-- A walk to older frames that starts from a layer, and stays among the frames that are kept, does not fail. -/
theorem trackOlder_ok (hc : h.Consistent height) :
    ∀ (steps age rank : Nat), age + steps < h.capacity → rank < (h.frames.get age).layers.length →
      ∃ found, h.trackOlder steps age rank = .ok found := by
  intro steps
  induction steps with
  | zero =>
    intro age rank _ _
    exact ⟨some rank, rfl⟩
  | succ steps ih =>
    intro age rank hage hrank
    have hlayer : (h.frames.get age).layer rank = .ok ((h.frames.get age).layers[rank]) :=
      Frame.layer_eq_ok_iff.mpr (List.getElem?_eq_getElem hrank)
    rw [trackOlder, hlayer, ok_bind]
    cases hprev : ((h.frames.get age).layers[rank]).prevRank with
    | none => exact ⟨none, rfl⟩
    | some prev =>
      have hlt : prev < (h.frames.get (age + 1)).layers.length :=
        (hc.linked age (by omega)).prev_lt (List.getElem_mem hrank) hprev
      exact ih (age + 1) prev (by omega) hlt

/-- A walk to the newest frame that starts from a layer does not fail. -/
theorem trackNewer_ok (hc : h.Consistent height) :
    ∀ (age rank : Nat), age < h.capacity → rank < (h.frames.get age).layers.length →
      ∃ found, h.trackNewer age rank = .ok found := by
  intro age
  induction age with
  | zero =>
    intro rank _ _
    exact ⟨some rank, rfl⟩
  | succ age ih =>
    intro rank hage hrank
    have hlayer : (h.frames.get (age + 1)).layer rank = .ok ((h.frames.get (age + 1)).layers[rank]) :=
      Frame.layer_eq_ok_iff.mpr (List.getElem?_eq_getElem hrank)
    rw [trackNewer, hlayer, ok_bind]
    cases hnext : ((h.frames.get (age + 1)).layers[rank]).nextRank with
    | none => exact ⟨none, rfl⟩
    | some next =>
      have hlt : next < (h.frames.get age).layers.length :=
        (hc.linked age hage).next_lt (List.getElem_mem hrank) hnext
      exact ih next (by omega) hlt

/-! ## Queries -/

theorem checkAge_of_lt (hage : h.maxAge < age) : h.checkAge age = .error (.ageOutOfRange age h.maxAge) :=
  if_neg (Nat.not_le_of_lt hage)

/-- How a walk between the newest frame and another one ends: with the age refused, with the rank refused, or with an
answer. -/
theorem track_cases (hc : h.Consistent height) (age rank : Nat) (direction : Direction) :
    (h.maxAge < age ∧ h.track age rank direction = .error (.ageOutOfRange age h.maxAge)) ∨
    (age ≤ h.maxAge ∧ (h.frames.get (direction.startAge age)).layers.length ≤ rank ∧
      h.track age rank direction =
        .error (.rankOutOfRange rank (h.frames.get (direction.startAge age)).layers.length)) ∨
    (age ≤ h.maxAge ∧ rank < (h.frames.get (direction.startAge age)).layers.length ∧
      ∃ found, h.track age rank direction = .ok found) := by
  have hcapacity := hc.capacity_eq
  rcases Nat.lt_or_ge h.maxAge age with hlate | hage
  · left
    exact ⟨hlate, by simp only [track, checkAge_of_lt hlate, error_bind]⟩
  have hcheck : h.checkAge age = .ok () := if_pos hage
  right
  rcases Nat.lt_or_ge rank (h.frames.get (direction.startAge age)).layers.length with hrank | hrank
  · right
    have hlayer := Frame.layer_eq_ok_iff.mpr (List.getElem?_eq_getElem hrank)
    refine ⟨hage, hrank, ?_⟩
    cases direction with
    | older =>
      obtain ⟨found, hfound⟩ := trackOlder_ok hc age 0 rank (by omega) hrank
      refine ⟨found, ?_⟩
      simp only [track, hcheck, ok_bind, show h.newest.layer rank = _ from hlayer, hfound]
    | newer =>
      obtain ⟨found, hfound⟩ := trackNewer_ok hc age rank (by omega) hrank
      refine ⟨found, ?_⟩
      simp only [track, hcheck, ok_bind, show (h.frames.get age).layer rank = _ from hlayer, hfound]
  · left
    have hlayer : (h.frames.get (direction.startAge age)).layer rank =
        .error (.rankOutOfRange rank (h.frames.get (direction.startAge age)).layers.length) :=
      Frame.layer_eq_error hrank
    refine ⟨hage, hrank, ?_⟩
    cases direction with
    | older => simp only [track, hcheck, ok_bind, show h.newest.layer rank = _ from hlayer, error_bind]
    | newer =>
      simp only [track, hcheck, ok_bind, show (h.frames.get age).layer rank = _ from hlayer, error_bind]

/-- How a damage query ends: with the age refused, or with an answer. -/
theorem repaintArea_cases (hc : h.Consistent height) (age : Nat) (blur : Size) :
    (h.maxAge < age ∧ h.repaintArea age blur = .error (.ageOutOfRange age h.maxAge)) ∨
    (age ≤ h.maxAge ∧ ∃ result, h.repaintArea age blur = .ok result) := by
  rcases Nat.lt_or_ge h.maxAge age with hlate | hage
  · left
    exact ⟨hlate, by simp only [repaintArea, checkAge_of_lt hlate, error_bind]⟩
  · right
    obtain ⟨changes, hok, _⟩ := changesSince_spec hc.linksInto age hage
    exact ⟨hage, _, repaintArea_ok hage hok blur⟩

variable {config : Config} {actions : List Action}

/-- **Queries are refused for their arguments alone.** After every run, whatever its stacks and however often the ring
has wrapped around, a damage query is refused iff its age is not kept, and a walk iff its age is not kept or the frame
that it starts from has no layer of its rank; the fault names the argument. A link between two frames that are kept
always leads to a layer, so none that is followed on the way is out of range. -/
theorem queries_refused_iff (hrun : replay config actions = .ok h) :
    (∀ age blur fault, h.repaintArea age blur = .error fault ↔
      config.maxAge < age ∧ fault = .ageOutOfRange age config.maxAge) ∧
    (∀ age rank direction fault, h.track age rank direction = .error fault ↔
      (config.maxAge < age ∧ fault = .ageOutOfRange age config.maxAge) ∨
      ∃ start, age ≤ config.maxAge ∧ h.frame (direction.startAge age) = .ok start ∧ start.layers.length ≤ rank ∧
        fault = .rankOutOfRange rank start.layers.length) ∧
    ∀ age < config.maxAge, ∃ newer older, h.frame age = .ok newer ∧ h.frame (age + 1) = .ok older ∧
      (∀ layer ∈ newer.layers, ∀ prev, layer.prevRank = some prev → prev < older.layers.length) ∧
      ∀ layer ∈ older.layers, ∀ next, layer.nextRank = some next → next < newer.layers.length := by
  obtain ⟨hc, hmaxAge⟩ := consistent_of_replay hrun
  have hcapacity := hc.capacity_eq
  rw [← hmaxAge]
  refine ⟨?_, ?_, ?_⟩
  · intro age blur fault
    rcases repaintArea_cases hc age blur with ⟨hlate, hrefused⟩ | ⟨hage, result, hok⟩
    · rw [hrefused]
      simp [hlate, eq_comm]
    · rw [hok]
      simp [Nat.not_lt_of_le hage]
  · intro age rank direction fault
    have hstart (hage : age ≤ h.maxAge) :
        h.frame (direction.startAge age) = .ok (h.frames.get (direction.startAge age)) := by
      cases direction with
      | older => exact h.frame_zero
      | newer => exact frame_eq_ok hage
    rcases track_cases hc age rank direction with
      ⟨hlate, hrefused⟩ | ⟨hage, hrank, hrefused⟩ | ⟨hage, hrank, found, hok⟩
    · rw [hrefused]
      simp [hlate, Nat.not_le_of_lt hlate, eq_comm]
    · rw [hrefused, hstart hage]
      simp [hage, Nat.not_lt_of_le hage, hrank, eq_comm]
    · rw [hok, hstart hage]
      simp [Nat.not_lt_of_le hage, hrank]
  · intro age hage
    have hlinked := hc.linked age (by omega)
    exact ⟨_, _, frame_eq_ok (by omega), frame_eq_ok (by omega), fun layer hlayer prev => hlinked.prev_lt hlayer,
      fun layer hlayer next => hlinked.next_lt hlayer⟩

/-- A window that comes twice, twice over, and then only the background is left. -/
def shrinkingRun : List Action :=
  let screen : Size := ⟨Binary.ofInt 32, Binary.ofInt 8⟩
  let copied := sampleWindow 2 16 8 :: sampleStack
  [.push sampleStack 7 screen, .push copied 7 screen, .push copied 7 screen, .push [sampleWindow 3 0 32] 7 screen]

/-- Four frames have gone through a ring of two. The newest one has a layer less than a walk from the one before may
start at. -/
theorem queries_refused_shrinkingRun :
    ∃ h, replay { maxAge := 1 } shrinkingRun = .ok h ∧
      h.repaintArea 2 Size.zero = .error (.ageOutOfRange 2 1) ∧
      h.track 1 1 .older = .error (.rankOutOfRange 1 1) ∧
      h.track 1 3 .newer = .error (.rankOutOfRange 3 3) ∧
      ¬ ∃ fault, h.track 1 2 .newer = .error fault := by
  have hlengths : (replay { maxAge := 1 } shrinkingRun).map (fun h =>
      (h.newest.layers.length, (h.frames.get 1).layers.length)) = .ok (1, 3) := by decide +kernel
  obtain ⟨h, hrun, hlengths⟩ := map_eq_ok_iff.mp hlengths
  obtain ⟨hnewest, hlast⟩ := Prod.mk.inj hlengths
  have hframe : h.frame 1 = .ok (h.frames.get 1) := frame_of_replay hrun (Nat.le_refl 1)
  obtain ⟨hdamage, hwalk, _⟩ := queries_refused_iff hrun
  refine ⟨h, hrun, ?_, ?_, ?_, ?_⟩
  · exact (hdamage 2 Size.zero _).mpr ⟨by decide, rfl⟩
  · exact (hwalk 1 1 .older _).mpr (Or.inr ⟨h.newest, Nat.le_refl 1, h.frame_zero, by omega, by rw [hnewest]⟩)
  · exact (hwalk 1 3 .newer _).mpr (Or.inr ⟨_, Nat.le_refl 1, hframe, by omega, by rw [hlast]⟩)
  · rintro ⟨fault, hfault⟩
    rcases (hwalk 1 2 .newer fault).mp hfault with ⟨hlate, _⟩ | ⟨start, _, hstart, hrank, _⟩
    · exact absurd hlate (by decide)
    · rw [show h.frame (Direction.startAge 1 .newer) = _ from hframe] at hstart
      cases hstart
      omega

end History

end Repaint
