import Repaint.Proofs.History.Stale

/-!
# Damage of many frames is the damage of each

A client that asks after every push for the damage of one frame, and keeps the answers, can add them up: the damage
of the last `age` frames, asked for at any later time, is the union of the last `age` answers, and it is the whole
screen iff one of them was (`repaintArea_accumulates`). Blurs are left out, for they spread through the newest
frame alone.

* **frozen frames** — pushes and markings to come change nothing that a damage query reads in a frame that has a
  successor (`Frame.Retells`, `Frame.changed_congr`);
* **the record** — an answer stays right for its two frames while they grow older (`Recalls.act`).
-/

namespace Repaint

variable {p : Point}

/-! ## What a frame goes on saying -/

/-- What a layer says of itself and of its window's last frame. -/
def Layer.past (l : Layer) : Layer × Region × Option Nat := (l.looks, l.damaged, l.prevRank)

theorem outranked_congr {below below' : List Layer} (h : below'.map Layer.past = below.map Layer.past)
    (prev : Nat) : outranked below' prev ↔ outranked below prev := by
  have hranks : below'.map Layer.prevRank = below.map Layer.prevRank := by
    have := congrArg (List.map (fun past => past.2.2)) h
    rwa [List.map_map, List.map_map] at this
  have hmem (layers : List Layer) : outranked layers prev ↔
      ∃ rank, some rank ∈ layers.map Layer.prevRank ∧ prev < rank := by
    constructor
    · rintro ⟨layer, hlayer, rank, hrank, hlt⟩
      exact ⟨rank, List.mem_map.mpr ⟨layer, hlayer, hrank⟩, hlt⟩
    · rintro ⟨rank, hrank, hlt⟩
      obtain ⟨layer, hlayer, hrank⟩ := List.mem_map.mp hrank
      exact ⟨layer, hlayer, rank, hrank, hlt⟩
  rw [hmem, hmem, hranks]

theorem Layer.changes_congr {layer layer' : Layer} {below below' : List Layer} (older : Frame)
    (h : layer'.past = layer.past) (hbelow : below'.map Layer.past = below.map Layer.past)
    (hp : layer.changes older below p) : layer'.changes older below' p := by
  obtain ⟨hlooks, hrest⟩ := Prod.mk.inj h
  obtain ⟨hdamaged, hprev⟩ := Prod.mk.inj hrest
  have hoccupies : layer'.occupies p ↔ layer.occupies p := by
    show layer'.looks.occupies p ↔ layer.looks.occupies p
    rw [hlooks]
  have hdiffers (old : Layer) : layer'.looksDifferent old = layer.looksDifferent old := by
    show layer'.looks.looksDifferent old = layer.looks.looksDifferent old
    rw [hlooks]
  have hdamages : layer'.damages p ↔ layer.damages p := by
    unfold damages
    rw [hdamaged]
  unfold changes at hp ⊢
  rw [hprev]
  simp only [hoccupies, hdiffers, hdamages, outranked_congr hbelow]
  exact hp

namespace Frame

/-- The frames agree in size, in surface, and in what their layers say of themselves and of the past. -/
structure Retells (f' f : Frame) : Prop where
  size : f'.size = f.size
  generation : f'.generation = f.generation
  layers : f'.layers.map Layer.past = f.layers.map Layer.past

variable {f f' newer newer' older : Frame}

theorem Retells.symm (h : f'.Retells f) : f.Retells f' :=
  ⟨h.size.symm, h.generation.symm, h.layers.symm⟩

theorem changed_of_retells (h : newer'.Retells newer) (hp : newer.changed older p) :
    newer'.changed older p := by
  rcases hp with ⟨rank, layer, hlayer, hp⟩ | hvanished
  · have hget := congrArg (·[rank]?) h.layers
    simp only [List.getElem?_map, hlayer, Option.map_some, Option.map_eq_some_iff] at hget
    obtain ⟨layer', hlayer', hpast⟩ := hget
    have hbelow : (newer'.layers.take rank).map Layer.past = (newer.layers.take rank).map Layer.past := by
      rw [List.map_take, List.map_take, h.layers]
    exact Or.inl ⟨rank, layer', hlayer', Layer.changes_congr older hpast hbelow hp⟩
  · exact Or.inr hvanished

/-- The changes since an older frame do not depend on what comes later. -/
theorem changed_congr (h : newer'.Retells newer) : newer'.changed older p ↔ newer.changed older p :=
  ⟨changed_of_retells h.symm, changed_of_retells h⟩

theorem size_eq_of_not_replaced (h : newer.replaced older = false) : newer.size = older.size := by
  simp only [replaced, Bool.or_eq_false_iff, Bool.not_eq_false'] at h
  exact Size.eq_of_agrees h.1

/-- A frame that was not replaced has a size that is a number, and so have the edges of its screen. -/
theorem numeric_bounds (h : newer.replaced older = false) : newer.bounds.Numeric := by
  simp only [replaced, Bool.or_eq_false_iff, Bool.not_eq_false', Size.agrees, Bool.and_eq_true] at h
  obtain ⟨⟨hwidth, hheight⟩, _⟩ := h
  have hne {a b : Coord} (h : a.agrees b = true) : a ≠ .nan := by
    rintro rfl
    cases h
  have hzero : (0 : Coord) ≠ .nan := by
    intro h
    cases h
  exact Rect.Numeric.normalize
    ⟨hzero, hzero, Binary.finite_add_ne_nan 0 (hne hwidth), Binary.finite_add_ne_nan 0 (hne hheight)⟩

/-- The answer is what there is to repaint from the one frame to the other. -/
structure Answered (newer older : Frame) (answer : DamageReport × Region) : Prop where
  full : answer.1.full = newer.replaced older
  covers : answer.1.full = false → ∀ p, answer.2.covers p ↔ newer.changed older p ∧ newer.bounds.covers p

/-- An answer stays right as long as the newer frame retells what it said. -/
theorem Answered.congr {answer : DamageReport × Region} (h : Answered newer older answer)
    (hnewer : newer'.Retells newer) : Answered newer' older answer := by
  have hreplaced : newer'.replaced older = newer.replaced older := by
    rw [replaced, replaced, hnewer.size, hnewer.generation]
  have hbounds : newer'.bounds = newer.bounds := by
    rw [bounds, bounds, hnewer.size]
  refine ⟨h.full.trans hreplaced.symm, fun hfull p => ?_⟩
  rw [changed_congr hnewer, hbounds, h.covers hfull]

end Frame

/-! ## Damage without blurs -/

theorem spreadBlur_zero (layers : List Layer) (area : Region) : spreadBlur layers Size.zero area = area := by
  simp only [spreadBlur]
  exact if_pos (by decide)

namespace History

variable {h h' : History} {height age : Nat} {config : Config}
variable {stack : List Window} {generation : UInt64} {size : Size} {dirty : Region}

theorem lostSince_eq_true_iff (hpos : 1 ≤ age) : h.lostSince age = true ↔
    ∃ i < age, (h.frames.get i).replaced (h.frames.get (i + 1)) = true := by
  simp [lostSince, show age ≠ 0 by omega]

theorem not_replaced (hkept : h.lostSince age = false) {i : Nat} (hi : i < age) :
    (h.frames.get i).replaced (h.frames.get (i + 1)) = false := by
  have hpos : 1 ≤ age := by omega
  rw [Bool.eq_false_iff]
  intro hreplaced
  have := (lostSince_eq_true_iff hpos).mpr ⟨i, hi, hreplaced⟩
  rw [hkept] at this
  cases this

theorem size_eq_newest (hkept : h.lostSince age = false) {i : Nat} (hi : i ≤ age) :
    (h.frames.get i).size = h.newest.size := by
  induction i with
  | zero => rfl
  | succ i ih => rw [← ih (by omega), Frame.size_eq_of_not_replaced (not_replaced hkept hi)]

/-- Frames of one size have one screen. -/
theorem bounds_eq_newest (hkept : h.lostSince age = false) {i : Nat} (hi : i ≤ age) :
    (h.frames.get i).bounds = h.newest.bounds := by
  rw [Frame.bounds, Frame.bounds, size_eq_newest hkept hi]

section Repainted

variable {changes : Region} {blur : Size}

/-- Of a lost buffer the whole screen is repainted. -/
theorem covers_repainted_of_lost (hlost : h.lostSince age = true) :
    (h.repainted age blur changes).covers p ↔ h.newest.bounds.covers p := by
  rw [repainted, if_pos hlost, Region.covers_ofRect, Frame.bounds, Rect.normalize_ofOrigin]

/-- Of a buffer that is kept, what the changes spread to is repainted, cut to the screen. -/
theorem covers_repainted_of_kept (hkept : h.lostSince age = false) (hpos : 1 ≤ age) (hsolid : changes.Solid) :
    (h.repainted age blur changes).covers p ↔
      (spreadBlur h.newest.layers blur changes).covers p ∧ h.newest.bounds.covers p := by
  have hspread := (spreadBlur_spec h.newest.layers blur hsolid).1
  have hscreen : h.newest.bounds.normalize = h.newest.bounds := Rect.normalize_ofOrigin _ _
  have hnumeric : h.newest.bounds.normalize.Numeric := by
    rw [hscreen]
    exact Frame.numeric_bounds (not_replaced hkept hpos)
  rw [repainted, if_neg (by simp [hkept]), Region.covers_clip hspread.numeric hnumeric, hscreen]

end Repainted

/-- What a damage query without blurs answers: the changes of every frame of the span, cut to the screen. -/
theorem repaintArea_zero (hc : h.Consistent height) (hpos : 1 ≤ age) (hage : age ≤ h.maxAge) :
    ∃ report area, h.repaintArea age Size.zero = .ok (report, area) ∧
      report.full = h.lostSince age ∧
      (report.full = false → ∀ p, area.covers p ↔
        (∃ i < age, (h.frames.get i).changed (h.frames.get (i + 1)) p) ∧ h.newest.bounds.covers p) := by
  obtain ⟨changes, hok, hsolid, hcovers⟩ := changesSince_spec hc.linksInto age hage
  refine ⟨_, _, repaintArea_ok hage hok Size.zero, rfl, fun hfull p => ?_⟩
  have hkept : h.lostSince age = false := hfull
  rw [covers_repainted_of_kept hkept hpos hsolid, spreadBlur_zero, hcovers p]

theorem answered_one (hc : h.Consistent height) {answer : DamageReport × Region}
    (hok : h.repaintArea 1 Size.zero = .ok answer) :
    Frame.Answered h.newest (h.frames.get 1) answer := by
  have hcapacity := hc.capacity
  obtain ⟨report, area, hok', hfull, hcovers⟩ :=
    repaintArea_zero hc (Nat.le_refl 1) (by unfold maxAge; omega)
  rw [hok] at hok'
  cases hok'
  constructor
  · rw [hfull, Bool.eq_iff_iff, lostSince_eq_true_iff (Nat.le_refl 1)]
    simp only [Nat.lt_one_iff, exists_eq_left]
    exact Iff.rfl
  · intro hnone p
    rw [hcovers hnone p]
    simp only [Nat.lt_one_iff, exists_eq_left]
    exact Iff.rfl

/-! ## The record -/

/-- Every answer, of those that are about frames still kept, is right for its frame and the one before. -/
def Recalls (h : History) (answers : List (DamageReport × Region)) : Prop :=
  ∀ i answer, i < h.maxAge → answers[i]? = some answer →
    Frame.Answered (h.frames.get i) (h.frames.get (i + 1)) answer

variable {answers : List (DamageReport × Region)}

theorem Pushed.retells_last (hp : Pushed h stack generation size h') (hcapacity : 2 ≤ h.capacity) :
    (h'.frames.get 1).Retells h.newest := by
  rw [hp.last (by omega)]
  exact ⟨rfl, rfl, h.map_lastLinked Layer.past (fun _ _ => rfl) stack size⟩

theorem Marked.retells_newest (hm : Marked h dirty h') : h'.newest.Retells h.newest := by
  have hlayers := map_marked Layer.past (fun _ _ => rfl) h.newest dirty
  rw [hm.newest]
  refine ⟨?_, ?_, hlayers⟩
  · unfold Frame.marked
    split <;> rfl
  · unfold Frame.marked
    split <;> rfl

/-- After a push the old answers are about frames one step older, and the new one is about the new frame. -/
theorem Recalls.push (hr : h.Recalls answers) (hcapacity : 2 ≤ h.capacity)
    (hp : Pushed h stack generation size h') {answer : DamageReport × Region}
    (hnew : Frame.Answered h'.newest (h'.frames.get 1) answer) : h'.Recalls (answer :: answers) := by
  intro i found hi hfound
  have hmaxAge : h'.maxAge = h.maxAge := congrArg (· - 1) hp.capacity
  have hcap : h.maxAge = h.capacity - 1 := rfl
  rcases i with _ | _ | i
  · cases hfound
    exact hnew
  · have hfirst : answers[0]? = some found := hfound
    rw [hp.older 1 (by omega) (by omega)]
    exact (hr 0 found (by omega) hfirst).congr (hp.retells_last hcapacity)
  · have hlater : answers[i + 1]? = some found := hfound
    rw [hp.older (i + 1) (by omega) (by omega), hp.older (i + 1 + 1) (by omega) (by omega)]
    exact hr (i + 1) found (by omega) hlater

theorem Recalls.mark (hr : h.Recalls answers) (hm : Marked h dirty h') : h'.Recalls answers := by
  intro i found hi hfound
  have hmaxAge : h'.maxAge = h.maxAge := congrArg (· - 1) hm.capacity
  have hcap : h.maxAge = h.capacity - 1 := rfl
  rw [hm.older (i + 1) (by omega) (by omega)]
  rcases i with _ | i
  · exact (hr 0 found (by omega) hfound).congr hm.retells_newest
  · rw [hm.older (i + 1) (by omega) (by omega)]
    exact hr (i + 1) found (by omega) hfound

/-- An action of a client that asks after every push for the damage of one frame. It keeps the answers, the last
one first. -/
def watch (s : History × List (DamageReport × Region)) (action : Action) :
    Except Fault (History × List (DamageReport × Region)) := do
  let h ← s.1.act action
  if action.isPush then return (h, (← h.repaintArea 1 Size.zero) :: s.2) else return (h, s.2)

/-- The history after a run of such a client, and the answers. -/
def watched (config : Config) (actions : List Action) :
    Except Fault (History × List (DamageReport × Region)) := do
  actions.foldlM watch (← start config, [])

variable {action : Action} {actions : List Action}

/-- Asking refuses nothing that the run itself does not refuse, and what is recalled stays right. -/
theorem Recalls.watch (hr : h.Recalls answers) (hc : h.Consistent height) (hok : h.act action = .ok h') :
    ∃ answers', History.watch (h, answers) action = .ok (h', answers') ∧ h'.Recalls answers' ∧
      answers'.length = answers.length + if action.isPush then 1 else 0 := by
  have hc' := (hc.act hok).1
  have hcapacity := hc'.capacity
  cases action with
  | push stack generation size =>
    obtain ⟨report, area, hanswer, _⟩ :=
      repaintArea_zero hc' (Nat.le_refl 1) (by unfold maxAge; omega)
    refine ⟨(report, area) :: answers, ?_, ?_, rfl⟩
    · simp only [History.watch, hok, ok_bind, Action.isPush, if_true, hanswer, pure_eq_ok]
    · exact hr.push hc.capacity (hc.pushed hok) (answered_one hc' hanswer)
  | mark stack dirty =>
    refine ⟨answers, ?_, hr.mark (marked_of_act hok), rfl⟩
    simp only [History.watch, hok, ok_bind, Action.isPush, Bool.false_eq_true, if_false, pure_eq_ok]

theorem recalls_of_foldlM (hr : h.Recalls answers) (hc : h.Consistent height)
    (hok : actions.foldlM History.act h = .ok h') :
    ∃ answers', actions.foldlM History.watch (h, answers) = .ok (h', answers') ∧ h'.Recalls answers' ∧
      answers'.length = answers.length + actions.countP Action.isPush := by
  induction actions generalizing h height answers with
  | nil =>
    cases hok
    exact ⟨answers, rfl, hr, rfl⟩
  | cons action actions ih =>
    rw [List.foldlM_cons, bind_eq_ok_iff] at hok
    obtain ⟨mid, hmid, hrest⟩ := hok
    obtain ⟨between, hwatch, hrmid, hlength⟩ := hr.watch hc hmid
    obtain ⟨answers', hok', hr', hlength'⟩ := ih hrmid (hc.act hmid).1 hrest
    refine ⟨answers', ?_, hr', ?_⟩
    · rw [List.foldlM_cons, hwatch, ok_bind, hok']
    · rw [hlength', hlength, List.countP_cons]
      omega

theorem exists_mem_take_iff {α : Type} {answers : List α} {P : α → Prop} :
    (∃ answer ∈ answers.take age, P answer) ↔ ∃ i < age, ∃ answer, answers[i]? = some answer ∧ P answer := by
  constructor
  · rintro ⟨answer, hmem, hP⟩
    obtain ⟨i, hi⟩ := List.mem_iff_getElem?.mp hmem
    rw [List.getElem?_take] at hi
    split at hi
    · exact ⟨i, ‹_›, answer, hi, hP⟩
    · cases hi
  · rintro ⟨i, hi, answer, hanswer, hP⟩
    refine ⟨answer, List.mem_iff_getElem?.mpr ⟨i, ?_⟩, hP⟩
    rw [List.getElem?_take, if_pos hi, hanswer]

/-- **Damage accumulates.** In every run, whatever its stacks, a client can ask for the damage of one frame after
every push. The damage of as many frames as are kept and were pushed, asked for at the end, is that of the whole
screen iff one of the last answers was; and if not, it covers the points that those answers cover. -/
theorem repaintArea_accumulates (hrun : replay config actions = .ok h) :
    ∃ answers, watched config actions = .ok (h, answers) ∧
      answers.length = actions.countP Action.isPush ∧
      ∀ age, 1 ≤ age → age ≤ config.maxAge → age ≤ actions.countP Action.isPush →
        ∃ report area, h.repaintArea age Size.zero = .ok (report, area) ∧
          (report.full = true ↔ ∃ answer ∈ answers.take age, answer.1.full = true) ∧
          (report.full = false → ∀ p, area.covers p ↔ ∃ answer ∈ answers.take age, answer.2.covers p) := by
  obtain ⟨hc, hmaxAge⟩ := consistent_of_replay hrun
  rw [replay, bind_eq_ok_iff] at hrun
  obtain ⟨blank, hstart, hrun⟩ := hrun
  have hnone : blank.Recalls [] := fun i answer _ hanswer => absurd hanswer (by simp)
  obtain ⟨answers, hwatched, hr, hlength⟩ := recalls_of_foldlM hnone (consistent_start hstart) hrun
  rw [List.length_nil, Nat.zero_add] at hlength
  refine ⟨answers, bind_eq_ok_iff.mpr ⟨blank, hstart, hwatched⟩, hlength, fun age hpos hage hcount => ?_⟩
  obtain ⟨report, area, hok, hfull, hcovers⟩ := repaintArea_zero hc hpos (by omega)
  -- to every frame of the span belongs an answer
  have hanswer (i : Nat) (hi : i < age) : ∃ answer, answers[i]? = some answer ∧
      Frame.Answered (h.frames.get i) (h.frames.get (i + 1)) answer :=
    have hlt : i < answers.length := by omega
    ⟨answers[i], List.getElem?_eq_getElem hlt, hr i _ (by omega) (List.getElem?_eq_getElem hlt)⟩
  refine ⟨report, area, hok, ?_, fun hkept p => ?_⟩
  · rw [hfull, lostSince_eq_true_iff hpos, exists_mem_take_iff]
    refine exists_congr fun i => and_congr_right fun hi => ?_
    obtain ⟨answer, hget, hanswered⟩ := hanswer i hi
    simp only [hget, Option.some.injEq, exists_eq_left', hanswered.full]
  · rw [hcovers hkept p, exists_mem_take_iff, exists_and_right.symm]
    refine exists_congr fun i => ?_
    rw [and_assoc]
    refine and_congr_right fun hi => ?_
    obtain ⟨answer, hget, hanswered⟩ := hanswer i hi
    rw [hfull] at hkept
    have hpair : answer.1.full = false := hanswered.full.trans (not_replaced hkept hi)
    simp only [hget, Option.some.injEq, exists_eq_left', hanswered.covers hpair,
      bounds_eq_newest hkept (Nat.le_of_lt hi)]

theorem repaintArea_accumulates_sampleRun :
    ∃ h answers report area, replay {} sampleRun = .ok h ∧ watched {} sampleRun = .ok (h, answers) ∧
      h.repaintArea 2 Size.zero = .ok (report, area) ∧ report.full = false ∧
      ∀ p, area.covers p ↔ ∃ answer ∈ answers.take 2, answer.2.covers p := by
  obtain ⟨h, hrun⟩ := replay_sampleRun {} (by decide)
  obtain ⟨answers, hwatched, _, hadded⟩ := repaintArea_accumulates hrun
  obtain ⟨report, area, hok, _, hcovers⟩ := hadded 2 (by decide) (by decide) (by decide)
  have hevaluated : (replay {} sampleRun >>= fun h => h.repaintArea 2 Size.zero).map
      (fun result => result.1.full) = .ok false := by decide +kernel
  rw [hrun, ok_bind, hok] at hevaluated
  have hfull : report.full = false := Except.ok.inj hevaluated
  exact ⟨h, answers, report, area, hrun, hwatched, hok, hfull, hcovers hfull⟩

end History

end Repaint
