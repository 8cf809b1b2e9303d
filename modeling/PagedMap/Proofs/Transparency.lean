import Mathlib
import PagedMap.Proofs.Outline
import PagedMap.Proofs.Refinement

/-!
# Eviction is transparent

Some requests do not ask anything of the blocks of a map (`Request.isAside`): pages are asked to
leave memory, policies are told about pages, refusals are planned, and scans go on.  The transcript
of a run leaves them out (`Engine.transcript`).  It has the answers to all other requests, snapshots
without the pages in them, and how many blocks the maps have after each request.

Two runs have the same transcript if they have the same requests but for such asides, whatever their
policies and page stores are, as long as no call of the page stores fails (`Engine.transcript_eq`).

Such runs are in step: an aside changes one engine, which stays alike (`Engine.Twins.aside`), and
any other request is served by both (`Engine.Twins.serve`).
-/

namespace PagedMap

variable {K V : Type}

/-! ### Transcripts -/

/-- Whether a request asks nothing of the blocks of a map. -/
def Request.isAside : Request K V → Bool
  | .next _ | .closeScan _ | .evict _ | .report .. | .plan _ => true
  | _ => false

/-- Whether a request is to change maps. -/
def Request.isChange : Request K V → Bool
  | .make .. | .put .. | .remove .. | .clear _ | .drop _ => true
  | _ => false

/-- The descriptions of the blocks without their pages. -/
def Snapshot.unpaged (s : Snapshot K) : Snapshot K :=
  ⟨s.blocks.map fun info => { info with page := noPage }⟩

/-- The answer without pages. -/
def Answer.unpaged : Answer K V → Answer K V
  | .snapshot s => .snapshot s.unpaged
  | a => a

namespace Engine

/-- How many blocks each map has. -/
def blockCounts (e : Engine K V) : List Nat := (List.range e.maps.length).map e.blockCount

/-- What is answered to the requests of a list that are no asides, and how many blocks the maps have
after each of them. -/
def transcript [Wire K] [Wire V] [LE K] [DecidableLE K] [Sized K] [Sized V] :
    Engine K V → List (Request K V) → List (Answer K V × List Nat)
  | _, [] => []
  | e, q :: qs =>
    let (a, e') := e.serve q
    if q.isAside then e'.transcript qs else (a.unpaged, e'.blockCounts) :: e'.transcript qs

end Engine

/-! ### Requests but for asides -/

/-- The lists have the same requests but for asides. -/
inductive Request.SameButAsides : List (Request K V) → List (Request K V) → Prop
  | nil : SameButAsides [] []
  | left {q : Request K V} {qs₁ qs₂ : List (Request K V)} (hq : q.isAside = true)
      (h : SameButAsides qs₁ qs₂) : SameButAsides (q :: qs₁) qs₂
  | right {q : Request K V} {qs₁ qs₂ : List (Request K V)} (hq : q.isAside = true)
      (h : SameButAsides qs₁ qs₂) : SameButAsides qs₁ (q :: qs₂)
  | both {q : Request K V} {qs₁ qs₂ : List (Request K V)} (hq : q.isAside = false)
      (h : SameButAsides qs₁ qs₂) : SameButAsides (q :: qs₁) (q :: qs₂)

theorem Request.sameButAsides_of_filter_eq {qs₁ qs₂ : List (Request K V)}
    (h : qs₁.filter (!·.isAside) = qs₂.filter (!·.isAside)) : SameButAsides qs₁ qs₂ := by
  induction qs₁ generalizing qs₂ with
  | nil =>
    induction qs₂ with
    | nil => exact .nil
    | cons q qs₂ ih =>
      cases hq : q.isAside with
      | true => exact .right hq (ih (by simpa [hq] using h))
      | false => simp [hq] at h
  | cons q qs₁ ih =>
    cases hq : q.isAside with
    | true => exact .left hq (ih (by simpa [hq] using h))
    | false =>
      induction qs₂ with
      | nil => simp [hq] at h
      | cons q' qs₂ ih' =>
        cases hq' : q'.isAside with
        | true => exact .right hq' (ih' (by simpa [hq'] using h))
        | false =>
          simp only [List.filter_cons, hq, hq', Bool.not_false, if_true] at h
          obtain ⟨rfl, hrest⟩ := List.cons.inj h
          exact .both hq (ih hrest)

/-! ### Answers -/

/-- The reference takes one answer to a request that is no aside, but for what is in a snapshot. -/
theorem Reference.Accepts.unique [LE K] [DecidableLE K] [Sized K] [Sized V] {r : Reference K V}
    {q : Request K V} {a a' : Answer K V} (h : r.Accepts q a) (h' : r.Accepts q a')
    (hq : q.isAside = false) :
    a = a' ∨ ∃ m s s', q = .checkpoint m ∧ a = .snapshot s ∧ a' = .snapshot s' := by
  unfold Accepts at h h'
  cases htarget : q.target? with
  | none =>
    cases q <;> simp only [Request.target?, Request.isAside, reduceCtorEq] at htarget hq
    case make sizing policy =>
      simp only [Request.target?] at h h'
      cases hbudget : sizing.budget <;> simp only [hbudget] at h h' <;>
        exact Or.inl (h.trans h'.symm)
  | some m =>
    simp only [htarget] at h h'
    cases hm : r[m]? with
    | none =>
      simp only [hm] at h h'
      exact Or.inl (h.trans h'.symm)
    | some s =>
      simp only [hm] at h h'
      cases q <;> simp only [Request.target?, reduceCtorEq] at htarget
      case checkpoint m' =>
        obtain ⟨snapshot, rfl⟩ := h
        obtain ⟨snapshot', rfl⟩ := h'
        exact Or.inr ⟨m', snapshot, snapshot', rfl, rfl, rfl⟩
      all_goals exact Or.inl (h.trans h'.symm)

namespace Engine

variable [Wire K] [Wire V] {e e' e₁ e₂ e₁' e₂' : Engine K V} {m : Nat} {state : MapState K}
  {limit limit₁ limit₂ : Option Nat} {q : Request K V} {a a₁ a₂ : Answer K V}

/-- A snapshot without pages follows from the layout that it describes. -/
theorem Describes.unpaged_eq {snapshot : Snapshot K} {t : Layout K V} (h : e.Describes snapshot t) :
    snapshot.unpaged =
      ⟨(t.filter fun s => s.block.size ≠ 0).map fun s => { s.block.info with page := noPage }⟩ :=
  congrArg Snapshot.mk (h.map_eq (fun info => { info with page := noPage }) fun _ _ => rfl)

omit [Wire K] [Wire V] in
theorem blockCounts_eq (h : e₁.maps = e₂.maps) : e₁.blockCounts = e₂.blockCounts := by
  have hcount (m : Nat) : e₁.blockCount m = e₂.blockCount m := by rw [blockCount, blockCount, h]
  rw [blockCounts, blockCounts, h]
  exact List.map_congr_left fun m _ => hcount m

/-! ### Each request -/

variable [LE K] [DecidableLE K] [Sized K] [Sized V] [Lossless K] [Lossless V]

omit [Lossless K] [Lossless V] in
theorem Alike.make {sizing : Sizing} {policy : Nat} (h : Alike e₁ e₂) (hs₁ : e₁.AllHold limit₁)
    (hs₂ : e₂.AllHold limit₂) (hperform₁ : e₁.perform (.make sizing policy) = (a₁, e₁'))
    (hperform₂ : e₂.perform (.make sizing policy) = (a₂, e₂')) : Alike e₁' e₂' := by
  simp only [perform] at hperform₁ hperform₂
  cases hbudget : sizing.budget with
  | error cause =>
    rw [addMap_of_error hbudget] at hperform₁ hperform₂
    obtain ⟨-, rfl⟩ := Prod.mk.inj hperform₁
    obtain ⟨-, rfl⟩ := Prod.mk.inj hperform₂
    exact h
  | ok budget =>
    obtain ⟨-, -, -, -, hlayout₁, -⟩ := addMap_spec hs₁ (addMap_of_ok hbudget policy 0 e₁)
    obtain ⟨-, -, -, -, hlayout₂, -⟩ := addMap_spec hs₂ (addMap_of_ok hbudget policy 0 e₂)
    rw [addMap_of_ok hbudget] at hperform₁ hperform₂
    obtain ⟨-, rfl⟩ := Prod.mk.inj hperform₁
    obtain ⟨-, rfl⟩ := Prod.mk.inj hperform₂
    refine ⟨?_, h.count, fun m => (hlayout₁ m).trans ((h.layouts m).trans (hlayout₂ m).symm)⟩
    simp only [h.maps]

variable [Std.IsLinearOrder K] {key : K} {value : V}

theorem Alike.put {r₁ r₂ : Except MapError (Option V)} (h : Alike e₁ e₂) (hs₁ : e₁.AllHold limit₁)
    (hs₂ : e₂.AllHold limit₂) (ht₁ : e₁.Tidy) (ht₂ : e₂.Tidy) (hm : e₁.maps[m]? = some state)
    (hrun₁ : Act.run (Engine.put m key value) e₁ = (r₁, e₁'))
    (hrun₂ : Act.run (Engine.put m key value) e₂ = (r₂, e₂')) (hw₁ : e₁'.Within limit₁)
    (hw₂ : e₂'.Within limit₂) (hun₁ : Undisturbed e₁ e₁') (hun₂ : Undisturbed e₂ e₂') :
    Alike e₁' e₂' := by
  obtain ⟨hc₁, hcases₁⟩ := put_spec hs₁ hw₁ hm hrun₁
  obtain ⟨hc₂, hcases₂⟩ := put_spec hs₂ hw₂ (h.maps ▸ hm) hrun₂
  refine h.steps ht₁ ht₂ hm (steps_put ht₁ hrun₁) (steps_put ht₂ hrun₂) hc₁.allHold hc₂.allHold
    (h.layouts_changed hc₁ hc₂ ?_)
  rcases hcases₁ with ⟨-, hbig, rfl⟩ | ⟨hfits, ⟨-, -, hunread⟩ | ⟨-, lastId₁, hput₁⟩⟩
  · rcases hcases₂ with ⟨-, -, rfl⟩ | ⟨hfits, -⟩
    · exact h.layouts m
    · omega
  · exact absurd hun₁.1 hunread.refusedLoads_lt.ne'
  · rcases hcases₂ with ⟨-, hbig, -⟩ | ⟨-, ⟨-, -, hunread⟩ | ⟨-, lastId₂, hput₂⟩⟩
    · omega
    · exact absurd hun₂.1 hunread.refusedLoads_lt.ne'
    · rw [← h.layouts m, ← h.count] at hput₂
      exact hput₁.unique hput₂

theorem Alike.remove {r₁ r₂ : Except MapError (Option V)} (h : Alike e₁ e₂)
    (hs₁ : e₁.AllHold limit₁) (hs₂ : e₂.AllHold limit₂) (ht₁ : e₁.Tidy) (ht₂ : e₂.Tidy)
    (hm : e₁.maps[m]? = some state) (hrun₁ : Act.run (Engine.remove m key) e₁ = (r₁, e₁'))
    (hrun₂ : Act.run (Engine.remove m key) e₂ = (r₂, e₂')) (hw₁ : e₁'.Within limit₁)
    (hw₂ : e₂'.Within limit₂) (hun₁ : Undisturbed e₁ e₁') (hun₂ : Undisturbed e₂ e₂') :
    Alike e₁' e₂' := by
  obtain ⟨hc₁, hcases₁⟩ := remove_spec hs₁ hw₁ hm hrun₁
  obtain ⟨hc₂, hcases₂⟩ := remove_spec hs₂ hw₂ (h.maps ▸ hm) hrun₂
  have hremoval₁ := (hcases₁.resolve_left fun hun => hun₁.1.not_gt hun.2.2.refusedLoads_lt).2
  have hremoval₂ := (hcases₂.resolve_left fun hun => hun₂.1.not_gt hun.2.2.refusedLoads_lt).2
  rw [← h.layouts m] at hremoval₂
  exact h.steps ht₁ ht₂ hm (steps_remove ht₁ hrun₁) (steps_remove ht₂ hrun₂) hc₁.allHold hc₂.allHold
    (h.layouts_changed hc₁ hc₂ (hremoval₁.unique (hs₁.holds m state hm).tiled hremoval₂))

/-- A request that changes no map moves entries in and out of memory at most. -/
theorem keeps_serve (hq : q.isChange = false) (h : e.serve q = (a, e')) : Keeps limit e e' := by
  unfold serve at h
  split at h
  · cases q with
    | get m key =>
      obtain ⟨-, rfl⟩ := Prod.mk.inj h
      exact keeps_get? rfl
    | search m key =>
      have hrun : Act.run (valuesBetween m (some key) (some key)) e = (_, e') :=
        Prod.ext rfl (Prod.mk.inj h).2
      exact keeps_valuesBetween hrun
    | contains m key =>
      obtain ⟨-, rfl⟩ := Prod.mk.inj h
      exact keeps_contains rfl
    | range m first last =>
      obtain ⟨-, rfl⟩ := Prod.mk.inj h
      exact keeps_valuesBetween rfl
    | checkpoint m =>
      obtain ⟨-, rfl⟩ := Prod.mk.inj h
      exact keeps_snapshot rfl
    | openScan m first last =>
      rcases hscan : e.openScan m first last with cause | e₁ <;>
        simp only [perform, hscan, Prod.mk.injEq] at h <;> obtain ⟨-, rfl⟩ := h
      · exact .refl limit _
      · exact keeps_openScan hscan
    | next n =>
      rcases hnext : e.next n with ⟨value, e₁⟩
      have he : e₁ = e' := by
        simp only [perform, hnext] at h
        split at h <;> simp_all
      exact he ▸ keeps_next hnext
    | closeScan n => exact (Prod.mk.inj h).2 ▸ keeps_closeScan n
    | evict page => exact (Prod.mk.inj h).2 ▸ keeps_evict page
    | report report policy page =>
      cases report
      · exact (Prod.mk.inj h).2 ▸ keeps_addPage policy page
      · exact (Prod.mk.inj h).2 ▸ keeps_hitPage policy page
      · exact (Prod.mk.inj h).2 ▸ keeps_removePage policy page
    | plan faults => exact (Prod.mk.inj h).2 ▸ keeps_plan faults
    | _ => simp [Request.isChange] at hq
  · exact (Prod.mk.inj h).2 ▸ .refl limit e

/-- Requests served by engines that are alike, without a failure of a page store. -/
theorem Alike.serve (h : Alike e₁ e₂) (hs₁ : e₁.AllHold limit₁) (hs₂ : e₂.AllHold limit₂)
    (ht₁ : e₁.Tidy) (ht₂ : e₂.Tidy) (hserve₁ : e₁.serve q = (a₁, e₁'))
    (hserve₂ : e₂.serve q = (a₂, e₂')) (hw₁ : e₁'.Within limit₁) (hw₂ : e₂'.Within limit₂)
    (hun₁ : Undisturbed e₁ e₁') (hun₂ : Undisturbed e₂ e₂') : Alike e₁' e₂' := by
  cases hq : q.isChange with
  | false =>
    exact ((keeps_serve hq hserve₁).alike hw₁ hs₁).trans
      (h.trans ((keeps_serve hq hserve₂).alike hw₂ hs₂).symm)
  | true =>
    unfold Engine.serve at hserve₁ hserve₂
    rw [← h.maps] at hserve₂
    split at hserve₁
    · rename_i htarget
      rw [if_pos htarget] at hserve₂
      have hmap (m : Nat) (hm : q.target? = some m) : ∃ state, e₁.maps[m]? = some state := by
        have hlt : m < e₁.maps.length := by simpa [hm] using htarget
        exact ⟨_, List.getElem?_eq_getElem hlt⟩
      cases q with
      | make sizing policy => exact h.make hs₁ hs₂ hserve₁ hserve₂
      | put m key value =>
        obtain ⟨state, hm⟩ := hmap m rfl
        obtain ⟨-, rfl⟩ := Prod.mk.inj hserve₁
        obtain ⟨-, rfl⟩ := Prod.mk.inj hserve₂
        exact h.put hs₁ hs₂ ht₁ ht₂ hm rfl rfl hw₁ hw₂ hun₁ hun₂
      | remove m key =>
        obtain ⟨state, hm⟩ := hmap m rfl
        obtain ⟨-, rfl⟩ := Prod.mk.inj hserve₁
        obtain ⟨-, rfl⟩ := Prod.mk.inj hserve₂
        exact h.remove hs₁ hs₂ ht₁ ht₂ hm rfl rfl hw₁ hw₂ hun₁ hun₂
      | clear m =>
        obtain ⟨state, hm⟩ := hmap m rfl
        obtain ⟨-, rfl⟩ := Prod.mk.inj hserve₁
        obtain ⟨-, rfl⟩ := Prod.mk.inj hserve₂
        exact h.give_up hs₁ hs₂ hm (Or.inl ⟨rfl, rfl⟩)
      | drop m =>
        obtain ⟨state, hm⟩ := hmap m rfl
        obtain ⟨-, rfl⟩ := Prod.mk.inj hserve₁
        obtain ⟨-, rfl⟩ := Prod.mk.inj hserve₂
        exact h.give_up hs₁ hs₂ hm (Or.inr ⟨rfl, rfl⟩)
      | _ => simp [Request.isChange] at hq
    · rename_i htarget
      rw [if_neg htarget] at hserve₂
      obtain ⟨-, rfl⟩ := Prod.mk.inj hserve₁
      obtain ⟨-, rfl⟩ := Prod.mk.inj hserve₂
      exact h

omit [Lossless K] [Lossless V] [Std.IsLinearOrder K] in
/-- Answers to a request that is no aside, of engines that are alike, without a failure of a page
store. -/
theorem Alike.unpaged_eq (h : Alike e₁ e₂) (hserved₁ : Served limit₁ q a₁ e₁ e₁')
    (hserved₂ : Served limit₂ q a₂ e₂ e₂') (hq : q.isAside = false) (hun₁ : Undisturbed e₁ e₁')
    (hun₂ : Undisturbed e₂ e₂') : a₁.unpaged = a₂.unpaged := by
  obtain ⟨haccepts₁, -⟩ := hserved₁.outcome.resolve_left fun h => h.1.not_undisturbed hun₁
  obtain ⟨haccepts₂, -⟩ := hserved₂.outcome.resolve_left fun h => h.1.not_undisturbed hun₂
  rw [← h.mirror_eq] at haccepts₂
  rcases haccepts₁.unique haccepts₂ hq with rfl | ⟨m, s₁, s₂, rfl, rfl, rfl⟩
  · rfl
  · have hdescribes₁ := hserved₁.snapshots m s₁ rfl rfl
    have hdescribes₂ := hserved₂.snapshots m s₂ rfl rfl
    rw [Answer.unpaged, Answer.unpaged, hdescribes₁.unpaged_eq, hdescribes₂.unpaged_eq, h.layouts m]

/-! ### Runs -/

/-- Engines that are alike, and in which every map holds its layout and is tidy. -/
structure Twins (limit₁ limit₂ : Option Nat) (e₁ e₂ : Engine K V) : Prop extends Alike e₁ e₂ where
  allHold₁ : e₁.AllHold limit₁
  allHold₂ : e₂.AllHold limit₂
  tidy₁ : e₁.Tidy
  tidy₂ : e₂.Tidy

omit [Sized K] [Sized V] [Lossless K] [Lossless V] [Std.IsLinearOrder K] in
theorem Twins.symm (h : Twins limit₁ limit₂ e₁ e₂) : Twins limit₂ limit₁ e₂ e₁ :=
  ⟨h.toAlike.symm, h.allHold₂, h.allHold₁, h.tidy₂, h.tidy₁⟩

/-- An aside in one of the engines leaves them alike. -/
theorem Twins.aside (h : Twins limit₁ limit₂ e₁ e₂) (hq : q.isAside = true)
    (hserve : e₁.serve q = (a₁, e₁')) (hw : e₁'.Within limit₁) : Twins limit₁ limit₂ e₁' e₂ := by
  have hchange : q.isChange = false := by cases q <;> simp_all [Request.isAside, Request.isChange]
  have hkeeps : Keeps limit₁ e₁ e₁' := keeps_serve hchange hserve
  exact ⟨(hkeeps.alike hw h.allHold₁).trans h.toAlike, hkeeps.allHold hw h.allHold₁, h.allHold₂,
    (tidy_serve h.tidy₁ h.allHold₁.stores_pos hserve).1, h.tidy₂⟩

/-- Any other request, served by both, leaves the engines alike and is answered the same. -/
theorem Twins.serve (h : Twins limit₁ limit₂ e₁ e₂) (hq : q.isAside = false)
    (hserve₁ : e₁.serve q = (a₁, e₁')) (hserve₂ : e₂.serve q = (a₂, e₂')) (hw₁ : e₁'.Within limit₁)
    (hw₂ : e₂'.Within limit₂) (hun₁ : Undisturbed e₁ e₁') (hun₂ : Undisturbed e₂ e₂') :
    Twins limit₁ limit₂ e₁' e₂' ∧ a₁.unpaged = a₂.unpaged := by
  have hserved₁ := serve_spec h.allHold₁ hw₁ hserve₁
  have hserved₂ := serve_spec h.allHold₂ hw₂ hserve₂
  have halike :=
    h.toAlike.serve h.allHold₁ h.allHold₂ h.tidy₁ h.tidy₂ hserve₁ hserve₂ hw₁ hw₂ hun₁ hun₂
  exact ⟨⟨halike, hserved₁.allHold, hserved₂.allHold,
    (tidy_serve h.tidy₁ h.allHold₁.stores_pos hserve₁).1,
    (tidy_serve h.tidy₂ h.allHold₂.stores_pos hserve₂).1⟩,
    h.unpaged_eq hserved₁ hserved₂ hq hun₁ hun₂⟩

omit [Lossless K] [Lossless V] [Std.IsLinearOrder K] in
theorem transcript_aside {qs : List (Request K V)} (hq : q.isAside = true) :
    e.transcript (q :: qs) = (e.serve q).2.transcript qs :=
  if_pos hq

omit [Lossless K] [Lossless V] [Std.IsLinearOrder K] in
theorem transcript_cons {qs : List (Request K V)} (hq : q.isAside = false) :
    e.transcript (q :: qs) =
      ((e.serve q).1.unpaged, (e.serve q).2.blockCounts) :: (e.serve q).2.transcript qs :=
  if_neg (by simp [hq])

omit [Std.IsLinearOrder K] in
/-- What a run is to be, its first request and the run of the others are too. -/
theorem first_of_run {qs : List (Request K V)} {as : List (Answer K V)}
    (hrun : e.serveAll (q :: qs) = (as, e')) (hw : e'.Within limit) (hun : Undisturbed e e') :
    ∃ as', (e.serve q).2.serveAll qs = (as', e') ∧ (e.serve q).2.Within limit ∧
      Undisturbed e (e.serve q).2 ∧ Undisturbed (e.serve q).2 e' := by
  obtain ⟨a, e₁, as', hserve, hrest, -⟩ := serveAll_cons hrun
  rw [hserve]
  have hsuffix := suffix_serveAll hrest
  exact ⟨as', hrest, hw.of_suffix hsuffix, hun.split (suffix_serve hserve) hsuffix⟩

/-- Runs of engines that are alike have the same transcript. -/
theorem Twins.transcript {qs₁ qs₂ : List (Request K V)} {as₁ as₂ : List (Answer K V)}
    (h : Twins limit₁ limit₂ e₁ e₂) (hqs : Request.SameButAsides qs₁ qs₂)
    (hrun₁ : e₁.serveAll qs₁ = (as₁, e₁')) (hrun₂ : e₂.serveAll qs₂ = (as₂, e₂'))
    (hw₁ : e₁'.Within limit₁) (hw₂ : e₂'.Within limit₂) (hun₁ : Undisturbed e₁ e₁')
    (hun₂ : Undisturbed e₂ e₂') : e₁.transcript qs₁ = e₂.transcript qs₂ := by
  induction hqs generalizing e₁ e₂ as₁ as₂ with
  | nil => rfl
  | left hq hqs ih =>
    obtain ⟨as, hrest, hw, -, hun⟩ := first_of_run hrun₁ hw₁ hun₁
    rw [transcript_aside hq]
    exact ih (h.aside hq Prod.mk.eta.symm hw) hrest hrun₂ hun hun₂
  | right hq hqs ih =>
    obtain ⟨as, hrest, hw, -, hun⟩ := first_of_run hrun₂ hw₂ hun₂
    rw [transcript_aside hq]
    exact ih (h.symm.aside hq Prod.mk.eta.symm hw).symm hrun₁ hrest hun₁ hun
  | both hq hqs ih =>
    obtain ⟨as, hrest₁, hwithin₁, hfirst₁, hothers₁⟩ := first_of_run hrun₁ hw₁ hun₁
    obtain ⟨as', hrest₂, hwithin₂, hfirst₂, hothers₂⟩ := first_of_run hrun₂ hw₂ hun₂
    obtain ⟨htwins, hanswers⟩ := h.serve hq Prod.mk.eta.symm Prod.mk.eta.symm hwithin₁
      hwithin₂ hfirst₁ hfirst₂
    rw [transcript_cons hq, transcript_cons hq, hanswers, blockCounts_eq htwins.maps,
      ih htwins hrest₁ hrest₂ hothers₁ hothers₂]

/-- Two runs of the same requests, but for pages that are asked to leave memory and other asides,
have the same transcript, whatever their policies and page stores are, as long as no call of the
page stores fails: the same answers, the same descriptions of blocks in snapshots but for the pages,
and the same number of blocks in each map after every request. -/
theorem transcript_eq {policies₁ policies₂ : List (Policy BlockRef)} {store₁ store₂ : Store K V}
    {volume₁ volume₂ : Volume} {qs₁ qs₂ : List (Request K V)} {as₁ as₂ : List (Answer K V)}
    (hready₁ : store₁.Ready limit₁ volume₁) (hready₂ : store₂.Ready limit₂ volume₂)
    (hqs : qs₁.filter (!·.isAside) = qs₂.filter (!·.isAside))
    (hrun₁ : (start policies₁ store₁ volume₁).serveAll qs₁ = (as₁, e₁))
    (hrun₂ : (start policies₂ store₂ volume₂).serveAll qs₂ = (as₂, e₂))
    (hw₁ : e₁.Within limit₁) (hw₂ : e₂.Within limit₂) (hloads₁ : e₁.refusedLoads = 0)
    (hloads₂ : e₂.refusedLoads = 0) (hcreations₁ : e₁.failedCreations = 0)
    (hcreations₂ : e₂.failedCreations = 0) :
    (start policies₁ store₁ volume₁).transcript qs₁ =
      (start policies₂ store₂ volume₂).transcript qs₂ := by
  have htidy (policies : List (Policy BlockRef)) (store : Store K V) (volume : Volume) :
      (start policies store volume).Tidy := fun m state hm => by simp [start] at hm
  have htwins :
      Twins limit₁ limit₂ (start policies₁ store₁ volume₁) (start policies₂ store₂ volume₂) :=
    ⟨⟨rfl, rfl, fun _ => rfl⟩, allHold_start hready₁, allHold_start hready₂, htidy _ _ _,
      htidy _ _ _⟩
  exact htwins.transcript (Request.sameButAsides_of_filter_eq hqs) hrun₁ hrun₂ hw₁ hw₂
    ⟨hloads₁, hcreations₁⟩ ⟨hloads₂, hcreations₂⟩

/-- A clock for one page with its pages in a folder, and a lottery for two pages with its pages in
memory, which write differently many pages. -/
theorem transcript_eq_clock_lottery :
    let sizing : Sizing := { maxBlockSize := 12, entryOverhead := 2, blockOverhead := 0 }
    let store : Store (Shape.uint .w8).Datum (Shape.uint .w8).Datum :=
      { backing := .folder { directory := ["pages"], nextPage := 1 } }
    let volume : Volume := { nodes := [(["pages"], .directory)] }
    let e₁ := start [.clock (.empty 1)] store volume
    let e₂ : Engine (Shape.uint .w8).Datum (Shape.uint .w8).Datum :=
      start [.lottery (.empty 2 7)] .inMemory {}
    let qs₁ : List (Request (Shape.uint .w8).Datum (Shape.uint .w8).Datum) :=
      [.make sizing 0, .put 0 5#8 1#8, .put 0 3#8 2#8, .evict ⟨⟨1, 0⟩, 0⟩, .put 0 9#8 3#8,
        .put 0 7#8 4#8, .checkpoint 0, .remove 0 3#8, .evict ⟨⟨1, 1⟩, 1⟩,
        .range 0 (some 4#8) none, .clear 0, .put 0 6#8 5#8, .get 0 6#8]
    let qs₂ : List (Request (Shape.uint .w8).Datum (Shape.uint .w8).Datum) :=
      [.make sizing 0, .put 0 5#8 1#8, .put 0 3#8 2#8, .put 0 9#8 3#8, .put 0 7#8 4#8,
        .checkpoint 0, .evict ⟨⟨1, 0⟩, 0⟩, .remove 0 3#8, .range 0 (some 4#8) none, .clear 0,
        .put 0 6#8 5#8, .get 0 6#8]
    e₁.transcript qs₁ = e₂.transcript qs₂ ∧
      (e₁.serveAll qs₁).2.creations ≠ (e₂.serveAll qs₂).2.creations := by
  intro sizing store volume e₁ e₂ qs₁ qs₂
  have hready₁ : store.Ready (some 9) volume :=
    ⟨9, rfl, by decide, by decide, {}, by decide +kernel⟩
  have hready₂ : (Store.inMemory (K := (Shape.uint .w8).Datum) (V := (Shape.uint .w8).Datum)).Ready
      none {} := trivial
  have hqs : qs₁.filter (!·.isAside) = qs₂.filter (!·.isAside) := rfl
  set run₁ := e₁.serveAll qs₁
  set run₂ := e₂.serveAll qs₂
  have hloads₁ : run₁.2.refusedLoads = 0 := by decide +kernel
  have hloads₂ : run₂.2.refusedLoads = 0 := by decide +kernel
  have hfailed₁ : run₁.2.failedCreations = 0 := by decide +kernel
  have hfailed₂ : run₂.2.failedCreations = 0 := by decide +kernel
  have hcreations : run₁.2.creations ≤ 9 := by decide +kernel
  have hshort : ∀ event ∈ run₁.2.events, event.written.length < 3 := by decide +kernel
  have hdiffer : run₁.2.creations ≠ run₂.2.creations := by decide +kernel
  have hrun₁ : e₁.serveAll qs₁ = (run₁.1, run₁.2) := Prod.mk.eta.symm
  have hrun₂ : e₂.serveAll qs₂ = (run₂.1, run₂.2) := Prod.mk.eta.symm
  clear_value run₁ run₂
  have hw₁ : run₁.2.Within (some 9) :=
    within_some hcreations (fun _ => ⟨trivial, trivial⟩) fun event hevent =>
      Nat.lt_trans (hshort event hevent) (by decide)
  have hw₂ : run₂.2.Within none := Engine.within_none _
  exact ⟨transcript_eq hready₁ hready₂ hqs hrun₁ hrun₂ hw₁ hw₂ hloads₁ hloads₂ hfailed₁ hfailed₂,
    hdiffer⟩

end Engine

end PagedMap
