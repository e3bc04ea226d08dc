import Repaint.Proofs.History.Annals

/-!
# Windows known by their keys

The rank index is never built anew: a push carries it on along the links of the last frame, drops the windows that are
gone and adds those that came. After every session, whatever stacks were pushed in it, it still knows exactly the
windows of the newest frame, each at its highest rank (`rank?_of_session`).

A key that stands in the last frame may come any number of times; the index gives all its layers the same past. Only a
key that is new must not come twice, and nothing else stops a push (`push_refused_iff`).
-/

namespace Repaint

namespace History

variable {h : History} {config : Config} {actions : List Action}

/-! ## Who is there -/

/-- **The index is the newest frame.** After every session a key has the rank of its highest layer in the newest
frame, and no rank if it has no layer there. Where no key stands twice, the rank is the one that a search finds. -/
theorem rank?_of_session {calls : List Call} {answers : List (Except Fault Answer)}
    (hrun : session config calls = .ok (h, answers)) (key : Key) :
    ∃ newest, h.frame 0 = .ok newest ∧
      (∀ rank, h.rank? key = some rank ↔
        (∃ layer, newest.layer rank = .ok layer ∧ layer.key = key) ∧
          ∀ above layer, rank < above → newest.layer above = .ok layer → layer.key ≠ key) ∧
      (h.rank? key = none ↔ ∀ layer ∈ newest.layers, layer.key ≠ key) ∧
      (newest.Distinct → h.rank? key = newest.find? key) := by
  obtain ⟨hc, _⟩ := consistent_of_replay (session_iff_replay.mp ⟨answers, hrun⟩)
  have hrank : h.rank? key = topRank? h.newest.layers key := hc.index.ranks key
  refine ⟨h.newest, frame_eq_ok (Nat.zero_le _), fun rank => ?_, ?_, fun hdistinct => ?_⟩
  · simp only [hrank, topRank?_eq_some_iff, Frame.layer_eq_ok_iff]
  · simp [hrank, topRank?, lastRank?_eq_none_iff]
  · rw [hrank, hdistinct.topRank?_eq_find?]

/-- A window before a background that comes twice from the second frame on, with questions in between. -/
def copiedSession : List Call :=
  let screen : Size := ⟨Binary.ofInt 32, Binary.ofInt 8⟩
  let copied := sampleWindow 2 16 8 :: sampleStack
  [.act (.push sampleStack 7 screen), .ask (.rank ⟨2⟩), .act (.push copied 7 screen), .ask (.frame 9),
    .act (.push copied 7 screen)]

theorem rank?_of_copiedSession :
    ∃ h answers newest, session {} copiedSession = .ok (h, answers) ∧ h.frame 0 = .ok newest ∧
      h.rank? ⟨2⟩ = some 2 ∧ (∃ layer, newest.layer 2 = .ok layer ∧ layer.key = ⟨2⟩) ∧
      h.rank? ⟨1⟩ = none ∧ ∀ layer ∈ newest.layers, layer.key ≠ ⟨1⟩ := by
  have hranks : (session {} copiedSession).map (fun s => (s.1.rank? ⟨2⟩, s.1.rank? ⟨1⟩)) =
      .ok (some 2, none) := by decide +kernel
  obtain ⟨⟨h, answers⟩, hrun, hranks⟩ := map_eq_ok_iff.mp hranks
  obtain ⟨hthere, hgone⟩ := Prod.mk.inj hranks
  obtain ⟨newest, hnewest, hsome, _⟩ := rank?_of_session hrun ⟨2⟩
  obtain ⟨newest', hnewest', _, hnone, _⟩ := rank?_of_session hrun ⟨1⟩
  obtain rfl : newest = newest' := Except.ok.inj (hnewest.symm.trans hnewest')
  exact ⟨h, answers, newest, hrun, hnewest, hthere, ((hsome 2).mp hthere).1, hgone, hnone.mp hgone⟩

/-! ## What a push refuses -/

/-- **A push is refused exactly for a new key that comes twice.** After every run and for every stack a push is refused
iff two windows of the stack that become layers have one key that the index does not know, and goes through otherwise.
It is refused in the name of such a key: every place that a push reads or writes is there. -/
theorem push_refused_iff (hrun : replay config actions = .ok h) (stack : List Window) (generation : UInt64)
    (size : Size) :
    ((∃ fault, h.push stack generation size = .error fault) ↔
      ∃ key, h.rank? key = none ∧ 2 ≤ claimants stack size key) ∧
    ((∃ result, h.push stack generation size = .ok result) ↔
      ∀ key, h.rank? key = none → claimants stack size key ≤ 1) ∧
    ∀ fault, h.push stack generation size = .error fault →
      ∃ key, fault = .duplicateKey key ∧ h.rank? key = none ∧ 2 ≤ claimants stack size key := by
  obtain ⟨hc, _⟩ := consistent_of_replay hrun
  rcases push_cases hc.index stack generation size with ⟨⟨result, hok⟩, hfew⟩ | ⟨key, hrefused, hnew, hmany⟩
  · -- the push goes through
    have hno : ¬ ∃ fault, h.push stack generation size = .error fault := by
      rintro ⟨fault, hfault⟩
      rw [hok] at hfault
      cases hfault
    refine ⟨iff_of_false hno ?_, iff_of_true ⟨result, hok⟩ hfew, fun fault hfault => absurd ⟨fault, hfault⟩ hno⟩
    rintro ⟨key, hnew, hmany⟩
    have := hfew key hnew
    omega
  · -- it is refused
    refine ⟨iff_of_true ⟨_, hrefused⟩ ⟨key, hnew, hmany⟩, iff_of_false ?_ ?_, ?_⟩
    · rintro ⟨result, hok⟩
      rw [hrefused] at hok
      cases hok
    · intro hall
      have := hall key hnew
      omega
    · intro fault hfault
      rw [hrefused] at hfault
      cases hfault
      exact ⟨key, rfl, hnew, hmany⟩

/-- A window that is gone may come again, but not twice. -/
theorem push_refused_sampleRun :
    ∃ h, replay {} sampleRun = .ok h ∧ h.rank? ⟨1⟩ = none ∧
      (∃ fault, h.push [sampleWindow 1 0 8, sampleWindow 1 4 8] 7 ⟨Binary.ofInt 32, Binary.ofInt 8⟩ = .error fault) ∧
      ∃ result, h.push [sampleWindow 2 0 8, sampleWindow 2 4 8] 7 ⟨Binary.ofInt 32, Binary.ofInt 8⟩ = .ok result := by
  have hranks : (replay {} sampleRun).map (fun h => (h.rank? ⟨1⟩, h.rank? ⟨2⟩)) = .ok (none, some 1) := by
    decide +kernel
  obtain ⟨h, hrun, hranks⟩ := map_eq_ok_iff.mp hranks
  obtain ⟨hgone, hthere⟩ := Prod.mk.inj hranks
  refine ⟨h, hrun, hgone, ?_, ?_⟩
  · exact (push_refused_iff hrun _ 7 _).1.mpr ⟨⟨1⟩, hgone, by decide +kernel⟩
  · refine (push_refused_iff hrun _ 7 _).2.1.mpr fun key hnew => ?_
    have hkey : (⟨2⟩ : Key) ≠ key := by
      rintro rfl
      rw [hthere] at hnew
      cases hnew
    simp [claimants, sampleWindow, hkey]

end History

end Repaint
