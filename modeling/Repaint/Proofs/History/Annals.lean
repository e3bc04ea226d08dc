import Repaint.History.Damage
import Repaint.History.Track
import Repaint.Proofs.History.Run

/-!
# The ring is the tail of a history without end

The annals of a run have a page for every frame ever pushed, newest first. A push adds a page and links the last
one forward to it; a marking sets the paint flags of the newest page; no older page is ever written again. There
is no ring in them, no index and no storage.

A session is a run with questions in between. After every session, the frame of each age that is kept is the page
of that age, and blank where the annals are too short (`frame_eq_page`): the places of the ring that are
overwritten are those that no age names any more.

* **push** — `Mirrors.push`: the new page, the last page linked forward, the others as they were;
* **mark** — `Mirrors.mark`: the newest page alone;
* **questions** — `session_iff_replay`: the history is that of the run without them.
-/

namespace Repaint

/-! ## Pages -/

/-- What a frame shows: all of it but its spare storage. -/
structure Page where
  size : Size := Size.zero
  generation : UInt64 := 0
  /-- The layers, bottom to top. -/
  layers : List Layer := []
deriving DecidableEq

def Frame.page (f : Frame) : Page := ⟨f.size, f.generation, f.layers⟩

namespace Page

/-- The page of a stack that comes after `last`. Each layer is linked back to the highest layer of its window. -/
def next (last : Page) (stack : List Window) (generation : UInt64) (size : Size) : Page :=
  ⟨size, generation,
    (seated stack size).map (fun layer => layer.setPrev (topRank? last.layers layer.key))⟩

/-- The page with its links forward to the one that comes after it: the highest layer of each window is linked to
the highest one there. -/
def linkedTo (last next : Page) : Page :=
  { last with layers := last.layers.mapIdx (fun rank layer => layer.setNext
      (if topRank? last.layers layer.key = some rank then topRank? next.layers layer.key else none)) }

/-- The page with the paint flags for a dirty area. -/
def marked (page : Page) (dirty : Region) : Page :=
  { page with layers := match page.layers with
      | [] => []
      | bottom :: above => bottom.setPaint true :: painted dirty above }

end Page

/-- The annals after an action, newest page first. -/
def Action.record (pages : List Page) : Action → List Page
  | push stack generation size =>
    let next := (pages.headD {}).next stack generation size
    next :: pages.modifyHead (fun last => last.linkedTo next)
  | mark _ dirty => pages.modifyHead (fun newest => newest.marked dirty)

/-- The annals of a run. -/
def annals (actions : List Action) : List Page := actions.foldl Action.record []

theorem Frame.page_marked (f : Frame) (dirty : Region) : (f.marked dirty).page = f.page.marked dirty := by
  unfold Frame.marked Page.marked Frame.page
  cases hlayers : f.layers with
  | nil => simp [hlayers]
  | cons bottom above => rfl

/-- Writing to the newest page, where there is none, leaves a blank one. -/
theorem getD_modifyHead_zero {pages : List Page} {f : Page → Page} (hf : f {} = {}) :
    (pages.modifyHead f)[0]?.getD {} = f (pages[0]?.getD {}) := by
  cases pages with
  | nil => exact hf.symm
  | cons newest older => rfl

/-! ## What a push and a marking do to the pages -/

namespace History

variable {h h' : History} {pages : List Page} {height : Nat} {config : Config}
variable {stack : List Window} {generation : UInt64} {size : Size} {dirty : Region}

theorem Pushed.page_newest (hp : Pushed h stack generation size h') (hi : h.Indexed) :
    h'.newest.page = h.newest.page.next stack generation size := by
  have hlayers : h'.newest.layers = (h.newest.page.next stack generation size).layers := by
    rw [hp.layers]
    exact List.map_congr_left fun layer _ => by rw [hi.ranks]; rfl
  show (⟨h'.newest.size, h'.newest.generation, h'.newest.layers⟩ : Page) = _
  rw [hp.newest_size, hp.newest_generation, hlayers]
  rfl

theorem Pushed.page_last (hp : Pushed h stack generation size h') (hi : h.Indexed)
    (hcapacity : 2 ≤ h.capacity) : (h'.frames.get 1).page = h.newest.page.linkedTo h'.newest.page := by
  have hlinked := linked_lastLinked hi hp.layers
  have hkeys := h.map_key_lastLinked stack size
  rw [hp.last (by omega)]
  suffices heq : (h.lastLinked stack size).layers = (h.newest.page.linkedTo h'.newest.page).layers by
    show (⟨h.newest.size, h.newest.generation, (h.lastLinked stack size).layers⟩ : Page) = _
    rw [heq]
    rfl
  -- layer by layer; what the link forward of a linked frame is has been proved
  refine List.ext_getElem? fun rank => ?_
  show _ = (h.newest.layers.mapIdx _)[rank]?
  rw [lastLinked_getElem?, List.getElem?_mapIdx]
  cases hold : h.newest.layers[rank]? with
  | none => rfl
  | some old =>
    have hnext := hlinked.next rank _ ((lastLinked_getElem? h stack size rank).trans (congrArg _ hold))
    rw [Layer.setNext_nextRank, Layer.setNext_key, topRank?_congr hkeys] at hnext
    rw [Option.map_some, Option.map_some, hnext]
    rfl

/-- The frames that are kept are the newest pages. -/
structure Mirrors (h : History) (pages : List Page) : Prop where
  page : ∀ age, age < h.capacity → (h.frames.get age).page = pages[age]?.getD {}
  pushes : h.pushes = pages.length

theorem mirrors_start (hok : start config = .ok h) : h.Mirrors [] := by
  refine ⟨fun age _ => ?_, ?_⟩
  · rw [frames_start hok]
    rfl
  · unfold start at hok
    split at hok <;> cases hok
    rfl

theorem Mirrors.newest (hm : h.Mirrors pages) (hcapacity : 2 ≤ h.capacity) :
    h.newest.page = pages[0]?.getD {} :=
  hm.page 0 (by omega)

theorem Mirrors.push (hm : h.Mirrors pages) (hi : h.Indexed) (hcapacity : 2 ≤ h.capacity)
    (hp : Pushed h stack generation size h') :
    h'.Mirrors ((Action.push stack generation size).record pages) := by
  have hnewest : h'.newest.page = (pages.headD {}).next stack generation size := by
    rw [hp.page_newest hi, hm.newest hcapacity, List.headD_eq_head?_getD, List.head?_eq_getElem?]
  refine ⟨fun age hage => ?_, ?_⟩
  · rw [hp.capacity] at hage
    -- the newest page is new and the last one is written; the others only grow older
    rcases age with _ | _ | age
    · exact hnewest
    · show (h'.frames.get 1).page = (pages.modifyHead _)[0]?.getD {}
      rw [getD_modifyHead_zero rfl, hp.page_last hi hcapacity, hm.newest hcapacity, hnewest]
    · show (h'.frames.get (age + 1 + 1)).page = (pages.modifyHead _)[age + 1]?.getD {}
      rw [List.getElem?_modifyHead_succ, hp.older (age + 1) (by omega) (by omega)]
      exact hm.page (age + 1) (by omega)
  · show h'.pushes = (pages.modifyHead _).length + 1
    rw [hp.pushes, hm.pushes, List.length_modifyHead]

theorem Mirrors.mark (hm : h.Mirrors pages) (hcapacity : 2 ≤ h.capacity) (hmarked : Marked h dirty h') :
    h'.Mirrors ((Action.mark stack dirty).record pages) := by
  refine ⟨fun age hage => ?_, ?_⟩
  · rw [hmarked.capacity] at hage
    rcases age with _ | age
    · show h'.newest.page = (pages.modifyHead _)[0]?.getD {}
      rw [getD_modifyHead_zero rfl, hmarked.newest, Frame.page_marked, hm.newest hcapacity]
    · show (h'.frames.get (age + 1)).page = (pages.modifyHead _)[age + 1]?.getD {}
      rw [List.getElem?_modifyHead_succ, hmarked.older (age + 1) (by omega) hage]
      exact hm.page (age + 1) hage
  · show h'.pushes = (pages.modifyHead _).length
    rw [hmarked.pushes, hm.pushes, List.length_modifyHead]

/-! ## The run -/

variable {action : Action} {actions : List Action}

theorem Mirrors.act (hm : h.Mirrors pages) (hc : h.Consistent height) (hok : h.act action = .ok h') :
    h'.Mirrors (action.record pages) := by
  cases action with
  | push stack generation size => exact hm.push hc.index hc.capacity (hc.pushed hok)
  | mark stack dirty => exact hm.mark hc.capacity (marked_of_act hok)

theorem mirrors_of_replay (hrun : replay config actions = .ok h) : h.Mirrors (annals actions) := by
  apply replay_rel (R := Mirrors) ?_ ?_ hrun
  · intro blank hstart
    exact mirrors_start hstart
  · intro action _ height mid pages mid' hc hm hok
    exact hm.act hc hok

end History

/-! ## Sessions -/

theorem length_annals (actions : List Action) : (annals actions).length = actions.countP Action.isPush := by
  suffices h : ∀ pages, (actions.foldl Action.record pages).length =
      pages.length + actions.countP Action.isPush by
    rw [annals, h, List.length_nil, Nat.zero_add]
  induction actions with
  | nil => exact fun _ => rfl
  | cons action actions ih =>
    intro pages
    rw [List.foldl_cons, ih]
    cases action with
    | push stack generation size =>
      show (pages.modifyHead _).length + 1 + _ = _
      rw [List.length_modifyHead, List.countP_cons_of_pos rfl]
      omega
    | mark stack dirty =>
      show (pages.modifyHead _).length + _ = _
      rw [List.length_modifyHead, List.countP_cons_of_neg Bool.false_ne_true]

/-- A question to a history. -/
inductive Query where
  | frame (age : Nat)
  | layer (age rank : Nat)
  | find (age : Nat) (key : Key)
  | rank (key : Key)
  | track (age rank : Nat) (direction : Direction)
  | repaintArea (age : Nat) (blur : Size)
  | windowDamage (rank age : Nat) (area : Region)
  | uncovered
  | pushes

/-- What a history answers. -/
inductive Answer where
  | frame (frame : Frame)
  | layer (layer : Layer)
  | rank (rank : Option Nat)
  | damage (report : DamageReport) (area : Region)
  | area (area : Region)
  | count (count : Nat)

/-- A call of a client. -/
inductive Call where
  | act (action : Action)
  | ask (query : Query)

def Call.action? : Call → Option Action
  | act action => some action
  | ask _ => none

namespace History

def answer (h : History) : Query → Except Fault Answer
  | .frame age => (h.frame age).map .frame
  | .layer age rank => (h.layer age rank).map .layer
  | .find age key => (h.frame age).map (fun frame => .rank (frame.find? key))
  | .rank key => .ok (.rank (h.rank? key))
  | .track age rank direction => (h.track age rank direction).map .rank
  | .repaintArea age blur => (h.repaintArea age blur).map (fun result => .damage result.1 result.2)
  | .windowDamage rank age area => (h.windowDamage rank age area).map .area
  | .uncovered => .ok (.area h.uncovered)
  | .pushes => .ok (.count h.pushes)

/-- One call, and the answers so far. A question that is refused does not end the session. -/
def call (s : History × List (Except Fault Answer)) :
    Call → Except Fault (History × List (Except Fault Answer))
  | .act action => do return (← s.1.act action, s.2)
  | .ask query => .ok (s.1, s.1.answer query :: s.2)

/-- The history after a session, and its answers, the last one first. -/
def session (config : Config) (calls : List Call) : Except Fault (History × List (Except Fault Answer)) := do
  calls.foldlM call (← start config, [])

variable {h : History} {config : Config} {calls : List Call}

theorem foldlM_call_iff {s : History × List (Except Fault Answer)} :
    (∃ answers, calls.foldlM call s = .ok (h, answers)) ↔
      (calls.filterMap Call.action?).foldlM act s.1 = .ok h := by
  induction calls generalizing s with
  | nil =>
    constructor
    · rintro ⟨answers, hok⟩
      cases hok
      rfl
    · intro hok
      cases hok
      exact ⟨s.2, rfl⟩
  | cons call calls ih =>
    cases call with
    | ask query =>
      show (∃ answers, calls.foldlM History.call (s.1, s.1.answer query :: s.2) = .ok (h, answers)) ↔ _
      rw [ih]
      rfl
    | act action =>
      show (∃ answers, ((s.1.act action >>= fun mid => pure (mid, s.2)) >>= fun mid =>
        calls.foldlM History.call mid) = .ok (h, answers)) ↔
          (s.1.act action >>= fun mid => (calls.filterMap Call.action?).foldlM History.act mid) = .ok h
      cases s.1.act action with
      | error fault => simp
      | ok mid => exact ih

/-- Questions change nothing: a session ends with the history of the run of its actions. -/
theorem session_iff_replay : (∃ answers, session config calls = .ok (h, answers)) ↔
    replay config (calls.filterMap Call.action?) = .ok h := by
  unfold session replay
  cases start config with
  | error fault => simp
  | ok blank => exact foldlM_call_iff

variable {answers : List (Except Fault Answer)}

/-- **The ring is the tail of the annals.** After every session, whatever its length and the number of slots that
frames had from the start, the frame of each age that is kept is the page of that age in the annals of the
session's actions, and blank if they have no such page. The pushes have been counted, an older frame is refused
and no other, and the questions have changed nothing. -/
theorem frame_eq_page (hrun : session config calls = .ok (h, answers)) :
    (∀ age ≤ config.maxAge, ∃ frame, h.frame age = .ok frame ∧
      frame.page = (annals (calls.filterMap Call.action?))[age]?.getD {}) ∧
    h.pushes = (calls.filterMap Call.action?).countP Action.isPush ∧
    (∀ age, (∃ fault, h.frame age = .error fault) ↔ config.maxAge < age) ∧
    replay config (calls.filterMap Call.action?) = .ok h := by
  have hreplay := session_iff_replay.mp ⟨answers, hrun⟩
  have hm := mirrors_of_replay hreplay
  obtain ⟨hc, hmaxAge⟩ := consistent_of_replay hreplay
  have hcapacity := hc.capacity_eq
  refine ⟨fun age hage => ?_, ?_, fun age => ?_, hreplay⟩
  · exact ⟨_, frame_eq_ok (by omega), hm.page age (by omega)⟩
  · rw [hm.pushes, length_annals]
  · constructor
    · rintro ⟨fault, hfault⟩
      by_contra hle
      rw [frame_eq_ok (by omega)] at hfault
      cases hfault
    · intro hlt
      refine ⟨.ageOutOfRange age h.maxAge, ?_⟩
      simp only [frame, checkAge, if_neg (show ¬ age ≤ h.maxAge by omega)]
      rfl

/-- The sample run with questions in between, some of them refused. -/
def sampleSession : List Call :=
  sampleRun.flatMap (fun action => [.ask (.repaintArea 1 Size.zero), .act action, .ask (.frame 7)])

/-- Three frames have gone through a ring of two. -/
theorem frame_eq_page_sampleSession :
    ∃ h answers, session { maxAge := 1 } sampleSession = .ok (h, answers) ∧ h.pushes = 3 ∧
      ∀ age ≤ 1, ∃ frame, h.frame age = .ok frame ∧ frame.page = (annals sampleRun)[age]?.getD {} := by
  obtain ⟨h, hrun⟩ := replay_sampleRun { maxAge := 1 } (by decide)
  obtain ⟨answers, hok⟩ := session_iff_replay.mpr
    (show replay { maxAge := 1 } (sampleSession.filterMap Call.action?) = .ok h from hrun)
  obtain ⟨hframes, hpushes, _⟩ := frame_eq_page hok
  exact ⟨h, answers, hok, hpushes, hframes⟩

end History

end Repaint
