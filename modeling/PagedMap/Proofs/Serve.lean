import Mathlib
import PagedMap.Proofs.Put
import PagedMap.Proofs.Range
import PagedMap.Proofs.Reference
import PagedMap.Proofs.Remove
import PagedMap.Proofs.Restore

/-!
# Serving requests

An engine with one page store serves the requests of `Request` (`Engine.serve`).  What is served is
compared with the reference through the contents of the maps (`Engine.mirror`): a request gets the
answer that the reference accepts and changes the contents as the reference does, unless the page
store refuses to read the block that it needs, or cannot write a block for a snapshot
(`Engine.Refused`).  A request that fails leaves the layout of every map (`Engine.serve_spec`).
-/

namespace PagedMap

variable {K V : Type}

/-- The answer that tells what came of a request. -/
def Answer.of {α : Type} (f : α → Answer K V) : Except MapError α → Answer K V
  | .ok x => f x
  | .error cause => .failed cause

/-- The answer that tells what came of a step of a scan. -/
def Answer.ofStep : Option (Except MapError V) → Answer K V
  | some (.ok v) => .value (some v)
  | some (.error cause) => .failed cause
  | none => .value none

/-- The map of the reference in the place of a map. -/
def Home.ordered (home : Home) (entries : Entries K V) : OrderedMap K V :=
  { entryOverhead := home.entryOverhead, budget := home.budget, entries }

/-- What a request makes of the layout of the map of a number.  `home?` is the home of the map, if
there is such a map. -/
inductive Layout.Shift [LE K] [DecidableLE K] [Sized K] [Sized V] (q : Request K V) (m : Nat)
    (home? : Option Home) : Layout K V → Layout K V → Prop
  | stay (t : Layout K V) : Shift q m home? t t
  | put {home : Home} {ref : BlockRef} {key : K} {value : V} {lastId lastId' : Nat}
      {t t' : Layout K V} (hq : q = .put m key value) (hhome : home? = some home)
      (hfits : home.weight (key, value) ≤ home.budget) (ht : t.Tiled lastId)
      (hhomes : ∀ s ∈ t, s.block.home = home) (href : ∀ s ∈ t, s.ref ≠ ref)
      (h : Put home ref key value lastId t t' lastId') : Shift q m home? t t'
  | remove {key : K} {lastId : Nat} {t t' : Layout K V} (hq : q = .remove m key)
      (ht : t.Tiled lastId) (h : Removal key t t') : Shift q m home? t t'
  | clear (hq : q = .clear m ∨ q = .drop m) (t : Layout K V) : Shift q m home? t []

/-- What is true of 0 and of the excess of every block, none of which is negative, remains so. -/
theorem Layout.Shift.excess [LE K] [DecidableLE K] [Std.IsLinearOrder K] [Sized K] [Sized V]
    {q : Request K V} {m : Nat} {home? : Option Home} {t t' : Layout K V} {p : Int → Prop}
    (h : Shift q m home? t t') (hzero : p 0) (hnonneg : ∀ c, p c → 0 ≤ c)
    (ht : ∀ s ∈ t, p s.block.excess) : ∀ s ∈ t', p s.block.excess := by
  cases h with
  | stay => exact ht
  | put _ _ _ htiled _ _ hput => exact hput.excess hzero hnonneg htiled ht
  | remove _ htiled hremoval => exact hremoval.excess hnonneg htiled ht
  | clear => exact fun s hs => by simp at hs

namespace Engine

variable [Wire K] [Wire V] [LE K] [DecidableLE K] [Sized K] [Sized V]

/-! ### What is served -/

/-- Does what is asked of an engine. -/
def perform (e : Engine K V) : Request K V → Answer K V × Engine K V
  | .make sizing policy =>
    match e.addMap sizing policy 0 with
    | .ok e => (.done, e)
    | .error cause => (.failed cause, e)
  | .put m key value => (Act.run (put m key value) e).map (.of .value) id
  | .remove m key => (Act.run (remove m key) e).map (.of .value) id
  | .get m key => (Act.run (get? m key) e).map (.of .value) id
  | .search m key => (Act.run (valuesAt m key) e).map (.of .values) id
  | .contains m key => (Act.run (contains m key) e).map (.of .truth) id
  | .range m first last => (Act.run (valuesBetween m first last) e).map (.of .values) id
  | .checkpoint m => (Act.run (snapshot m) e).map (.of .snapshot) id
  | .clear m => (.done, e.clear m)
  | .drop m => (.done, e.drop m)
  | .openScan m first last =>
    match e.openScan m first last with
    | .ok e => (.done, e)
    | .error cause => (.failed cause, e)
  | .next scan =>
    match e.next scan with
    | (some (.ok value), e) => (.value (some value), e)
    | (some (.error cause), e) => (.failed cause, e)
    | (none, e) => (.value none, e)
  | .closeScan scan => (.done, e.closeScan scan)
  | .evict page => (.done, e.evict page)
  | .report .add policy page => (.done, e.addPage policy page)
  | .report .hit policy page => (.done, e.hitPage policy page)
  | .report .remove policy page => (.done, e.removePage policy page)
  | .plan faults => (.done, e.plan 0 faults)

/-- Serves a request.  One for a map that there is not changes nothing. -/
def serve (e : Engine K V) (q : Request K V) : Answer K V × Engine K V :=
  if q.target?.all (· < e.maps.length) then e.perform q else (.missing, e)

theorem serve_next (n : Nat) (e : Engine K V) :
    e.serve (.next n) = (.ofStep (e.next n).1, (e.next n).2) := by
  rcases hnext : e.next n with ⟨_ | _ | _, e₁⟩ <;>
    simp [serve, Request.target?, perform, hnext, Answer.ofStep]

/-- Serves the requests of a list. -/
def serveAll : Engine K V → List (Request K V) → List (Answer K V) × Engine K V
  | e, [] => ([], e)
  | e, q :: qs =>
    let (a, e) := e.serve q
    let (as, e) := serveAll e qs
    (a :: as, e)

/-- The contents of the maps. -/
def mirror (e : Engine K V) : Reference K V :=
  e.maps.mapIdx fun m state => state.home.ordered (e.contents m)

/-- A request for a map failed because the page store refused to read a block, or could not write
one for a snapshot. -/
def Refused (q : Request K V) (a : Answer K V) (e e' : Engine K V) : Prop :=
  ∃ m ∈ q.target?, a = .failed (.storage (.io .injected)) ∧ e'.Unread e m ∨
    ∃ cause, q = .checkpoint m ∧ a = .failed (.storage cause) ∧ e'.Unwritten e (e.layout m) cause

/-- What comes of serving a request. -/
structure Served (limit : Option Nat) (q : Request K V) (a : Answer K V) (e e' : Engine K V) :
    Prop where
  events : e.events <:+ e'.events
  homes : e.maps.map (·.home) <+: e'.maps.map (·.home)
  allHold : e'.AllHold limit
  pages : ∀ store page es, e.readPage store page = .ok es → e'.readPage store page = .ok es
  shifts : ∀ m, Layout.Shift q m ((e.maps[m]?).map (·.home)) (e.layout m) (e'.layout m)
  layouts : ∀ cause, a = .failed cause → ∀ m, e'.layout m = e.layout m
  snapshots : ∀ m snapshot, q = .checkpoint m → a = .snapshot snapshot →
    e'.Describes snapshot (e.layout m)
  outcome : Refused q a e e' ∧ e'.mirror = e.mirror ∨
    e.mirror.Accepts q a ∧ e'.mirror = e.mirror.after q

variable {e e' : Engine K V} {m : Nat} {state : MapState K} {limit : Option Nat} {q : Request K V}
  {a : Answer K V}

omit [Sized K] [Sized V] in
theorem getElem?_mirror (e : Engine K V) (m : Nat) :
    e.mirror[m]? = (e.maps[m]?).map fun state => state.home.ordered (e.contents m) := by
  simp [mirror]

omit [Sized K] [Sized V] in
/-- A change of one map is mirrored by a change of one map. -/
theorem Changes.mirror_eq_modify (h : Changes limit m e e') {f : OrderedMap K V → OrderedMap K V}
    (hm : e.maps[m]? = some state)
    (hf : f (state.home.ordered (e.contents m)) = state.home.ordered (e'.contents m)) :
    e'.mirror = e.mirror.modify m f := by
  refine List.ext_getElem? fun i => ?_
  have hhomes := congrArg (·[i]?) h.homes
  simp only [List.getElem?_map] at hhomes
  have hordered (es : Entries K V) : (e'.maps[i]?).map (fun state => state.home.ordered es) =
      (e.maps[i]?).map fun state => state.home.ordered es := by
    have hmap := congrArg (Option.map fun home => Home.ordered home es) hhomes
    rwa [Option.map_map, Option.map_map] at hmap
  rw [List.getElem?_modify, getElem?_mirror, getElem?_mirror, hordered]
  by_cases hi : m = i
  · subst hi
    simp [hm, hf]
  · have hcontents : e'.contents i = e.contents i := congrArg _ (h.others i (Ne.symm hi))
    simp [hi, hcontents]

omit [Sized K] [Sized V] in
theorem Changes.mirror_eq (h : Changes limit m e e') (hm : e.maps[m]? = some state)
    (hlayout : e'.layout m = e.layout m) : e'.mirror = e.mirror := by
  have hcontents : e'.contents m = e.contents m := congrArg _ hlayout
  have hmodify : e'.mirror = e.mirror.modify m id :=
    h.mirror_eq_modify hm (by rw [hcontents]; rfl)
  rwa [List.modify_id] at hmodify

/-- What comes of a request for a map that changes only this map. -/
theorem Served.of_changes (hm : e.maps[m]? = some state) (hq : q.target? = some m)
    (hc : Changes limit m e e')
    (hshift : Layout.Shift q m (some state.home) (e.layout m) (e'.layout m))
    (hfailed : ∀ cause, a = .failed cause → e'.layout m = e.layout m)
    (hsnapshots : ∀ m' snapshot, q = .checkpoint m' → a = .snapshot snapshot →
      e'.Describes snapshot (e.layout m'))
    (hout : Refused q a e e' ∧ e'.layout m = e.layout m ∨
      (state.home.ordered (e.contents m)).Accepts q a ∧
        (state.home.ordered (e.contents m)).after q = state.home.ordered (e'.contents m)) :
    Served limit q a e e' where
  events := hc.events
  homes := hc.homes ▸ List.prefix_refl _
  allHold := hc.allHold
  pages := hc.pages
  shifts m' := by
    by_cases hne : m' = m
    · subst hne
      rw [hm]
      exact hshift
    · exact hc.others m' hne ▸ .stay _
  layouts cause hcause m' := by
    by_cases hne : m' = m
    · exact hne ▸ hfailed cause hcause
    · exact hc.others m' hne
  snapshots := hsnapshots
  outcome := by
    refine hout.imp (fun ⟨hrefused, hsame⟩ => ⟨hrefused, hc.mirror_eq hm hsame⟩)
      fun ⟨haccepts, hafter⟩ => ⟨?_, ?_⟩
    · unfold Reference.Accepts
      simpa only [hq, getElem?_mirror, hm, Option.map_some] using haccepts
    · unfold Reference.after
      simpa only [hq] using hc.mirror_eq_modify hm hafter

/-- No map goes away. -/
theorem Served.length_le (h : Served limit q a e e') : e.maps.length ≤ e'.maps.length := by
  simpa using h.homes.length_le

/-! ### Requests that change no layout -/

variable [Lossless K] [Lossless V]

theorem Served.of_keeps (hs : e.AllHold limit) (hw : e'.Within limit) (hm : e.maps[m]? = some state)
    (hq : q.target? = some m) (hk : Keeps limit e e')
    (hsnapshots : ∀ m' snapshot, q = .checkpoint m' → a = .snapshot snapshot →
      e'.Describes snapshot (e.layout m'))
    (hafter : ∀ s : OrderedMap K V, s.after q = s)
    (hout : Refused q a e e' ∨ (state.home.ordered (e.contents m)).Accepts q a) :
    Served limit q a e e' := by
  have hlayout := hk.layout hw hs m
  have hcontents : e'.contents m = e.contents m := congrArg _ hlayout
  refine .of_changes hm hq (hk.changes hw hs m) (hlayout ▸ .stay _) (fun _ _ => hlayout)
    hsnapshots ?_
  refine hout.imp (fun hrefused => ⟨hrefused, hlayout⟩) fun haccepts => ⟨haccepts, ?_⟩
  rw [hafter, hcontents]

omit [Sized K] [Sized V] in
theorem Keeps.mirror_eq (hk : Keeps limit e e') (hw : e'.Within limit) (hs : e.AllHold limit) :
    e'.mirror = e.mirror := by
  have hcontents (m : Nat) : e'.contents m = e.contents m := congrArg _ (hk.layout hw hs m)
  refine List.ext_getElem? fun i => ?_
  rw [getElem?_mirror, getElem?_mirror, hk.maps, hcontents]

theorem Served.of_aside (hs : e.AllHold limit) (hw : e'.Within limit) (hk : Keeps limit e e')
    (hq : q.target? = none) (haccepts : e.mirror.Accepts q a)
    (hafter : e.mirror.after q = e.mirror) : Served limit q a e e' where
  events := hk.events
  homes := hk.maps ▸ List.prefix_refl _
  allHold := hk.allHold hw hs
  pages := hk.pages hw hs.roomy
  shifts m := hk.layout hw hs m ▸ .stay _
  layouts _ _ := hk.layout hw hs
  snapshots m snapshot hcheckpoint := by
    subst hcheckpoint
    simp [Request.target?] at hq
  outcome := Or.inr ⟨haccepts, (hk.mirror_eq hw hs).trans hafter.symm⟩

omit [Sized K] [Sized V] in
/-- What a store refuses does not matter for what its pages hold. -/
theorem keeps_plan (faults : Faults) : Keeps limit e (e.plan 0 faults) := by
  refine .of_pages (List.suffix_refl _) rfl rfl fun _ hr => ?_
  obtain ⟨s, hs, hroomy⟩ := hr
  have hstores : (e.plan 0 faults).stores = [{ s with faults }] := by
    rw [plan, hs]
    rfl
  refine ⟨⟨_, hstores, hroomy.congr rfl⟩, fun store page es hread => ?_⟩
  rw [readPage, hs] at hread
  rw [readPage, hstores]
  cases store with
  | zero => exact hread
  | succ n => exact hread

omit [Sized K] [Sized V] in
theorem keeps_openScan {first last : Option K} (h : e.openScan m first last = .ok e') :
    Keeps limit e e' := by
  obtain ⟨s, -, rfl⟩ := openScan_eq_ok h
  exact .of_frame (List.suffix_refl _) rfl rfl rfl rfl

omit [Sized K] [Sized V] in
theorem keeps_closeScan (n : Nat) : Keeps limit e (e.closeScan n) :=
  .of_frame (List.suffix_refl _) rfl rfl rfl rfl

/-! ### Making a map -/

omit [Sized K] [Sized V] [Lossless K] [Lossless V] in
/-- A new map is empty, and the other maps stay. -/
theorem addMap_spec {sizing : Sizing} {policy : Nat} (hs : e.AllHold limit)
    (h : e.addMap sizing policy 0 = .ok e') :
    e.events <:+ e'.events ∧ e.maps.map (·.home) <+: e'.maps.map (·.home) ∧ e'.AllHold limit ∧
      (∀ store page es, e.readPage store page = .ok es → e'.readPage store page = .ok es) ∧
      (∀ m, e'.layout m = e.layout m) ∧
      ∃ budget, sizing.budget = .ok budget ∧
        e'.mirror = e.mirror ++ [{ entryOverhead := sizing.entryOverhead, budget }] := by
  obtain ⟨budget, hbudget, rfl⟩ := addMap_eq_ok h
  set state : MapState K := { home :=
    ⟨e.maps.length + 1, policy, 0, sizing.entryOverhead, budget⟩ } with hstate
  set e' : Engine K V := { e with maps := e.maps ++ [state] } with he'
  have hmaps (m : Nat) : e'.maps[m]? = if m = e.maps.length then some state else e.maps[m]? :=
    getElem?_append_singleton _ _ _
  have hshows (s : Stretch K V) (h : e.Shows s) : e'.Shows s := h.of_frame rfl rfl rfl
  have hstay (m : Nat) (st : MapState K) (hm : e.maps[m]? = some st) : e'.Holds m st (e.layout m) :=
    have hh := hs.holds m st hm
    ⟨hh.directory, fun s hmem => hshows s (hh.shows s hmem), hh.homes, hh.owner, hh.store, hh.tiled⟩
  have hnew : e'.Holds e.maps.length state [] :=
    ⟨rfl, by simp, by simp, rfl, rfl, by simp, by simp, List.Pairwise.nil, trivial⟩
  have hlayout (m : Nat) : e'.layout m = e.layout m := by
    by_cases hm : m = e.maps.length
    · subst hm
      rw [hnew.layout_eq (by simp [hmaps]), layout_of_none (by simp)]
    · have hget := hmaps m
      rw [if_neg hm] at hget
      cases hcase : e.maps[m]? with
      | none => rw [layout_of_none hcase, layout_of_none (hget.trans hcase)]
      | some st => exact (hstay m st hcase).layout_eq (hget.trans hcase)
  refine ⟨List.suffix_refl _, by simp [he'],
    .of_holds (hs.roomy.congr rfl rfl (List.suffix_refl _)) fun m st hget => ?_,
    fun _ _ _ hread => hread, hlayout, budget, hbudget, ?_⟩
  · rw [hmaps] at hget
    split at hget
    · rename_i hm
      obtain rfl := Option.some.inj hget
      exact hm ▸ ⟨[], hnew⟩
    · exact ⟨_, hstay m st hget⟩
  · refine List.ext_getElem? fun i => ?_
    have hcontents : e'.contents i = e.contents i := congrArg _ (hlayout i)
    have hlength : e.mirror.length = e.maps.length := by simp [mirror]
    rw [getElem?_mirror, hmaps, hcontents, getElem?_append_singleton, hlength, getElem?_mirror]
    by_cases hi : i = e.maps.length
    · have hempty : e.contents i = [] := by rw [contents, layout_of_none (by simp [hi])]; rfl
      simp [hi ▸ hempty, hi, hstate, Home.ordered]
    · simp [hi]

/-! ### Each request -/

variable [Std.IsLinearOrder K] {key : K} {value : V} {first last : Option K}

theorem served_put (hs : e.AllHold limit) (hw : e'.Within limit) (hm : e.maps[m]? = some state)
    (h : e.perform (.put m key value) = (a, e')) : Served limit (.put m key value) a e e' := by
  rcases hrun : Act.run (put m key value) e with ⟨r, e₁⟩
  simp only [perform, hrun, Prod.map, id, Prod.mk.injEq] at h
  obtain ⟨rfl, rfl⟩ := h
  have ht := (hs.holds m state hm).tiled
  obtain ⟨hc, ⟨rfl, hbig, rfl⟩ | ⟨hfits, hcases⟩⟩ := put_spec hs hw hm hrun
  · refine .of_changes hm rfl hc (.stay _) (fun _ _ => rfl) (by simp) (Or.inr ⟨?_, ?_⟩)
    · exact (if_pos hbig).symm
    · exact if_pos hbig
  · have hroom : ¬ state.home.budget < state.home.weight (key, value) := Nat.not_lt.2 hfits
    rcases hcases with ⟨rfl, hlayout, hunread⟩ | ⟨rfl, lastId, hput⟩
    · exact .of_changes hm rfl hc (hlayout ▸ .stay _) (fun _ _ => hlayout) (by simp)
        (Or.inl ⟨⟨m, rfl, Or.inl ⟨rfl, hunread⟩⟩, hlayout⟩)
    · have hh := hs.holds m state hm
      have href : ∀ s ∈ e.layout m, s.ref ≠ e.blocks.length := fun s hmem =>
        Nat.ne_of_lt (hh.shows s hmem).lt_length
      refine .of_changes hm rfl hc (.put rfl rfl hfits ht hh.homes href hput) (by simp [Answer.of])
        (by simp) (Or.inr ⟨?_, ?_⟩)
      · exact (if_neg hroom).symm
      · have hcontents : e₁.contents m = Entries.insert key value (e.contents m) := hput.contents ht
        rw [hcontents]
        exact if_neg hroom

theorem served_remove (hs : e.AllHold limit) (hw : e'.Within limit) (hm : e.maps[m]? = some state)
    (h : e.perform (.remove m key) = (a, e')) : Served limit (.remove m key) a e e' := by
  rcases hrun : Act.run (remove m key) e with ⟨r, e₁⟩
  simp only [perform, hrun, Prod.map, id, Prod.mk.injEq] at h
  obtain ⟨rfl, rfl⟩ := h
  have ht := (hs.holds m state hm).tiled
  obtain ⟨hc, ⟨rfl, hlayout, hunread⟩ | ⟨rfl, hremoval⟩⟩ := remove_spec hs hw hm hrun
  · exact .of_changes hm rfl hc (hlayout ▸ .stay _) (fun _ _ => hlayout) (by simp)
      (Or.inl ⟨⟨m, rfl, Or.inl ⟨rfl, hunread⟩⟩, hlayout⟩)
  · refine .of_changes hm rfl hc (.remove rfl ht hremoval) (by simp [Answer.of]) (by simp)
      (Or.inr ⟨rfl, ?_⟩)
    have hcontents : e₁.contents m = Entries.erase (e.contents m) key := hremoval.contents ht
    rw [hcontents]
    rfl

omit [Std.IsLinearOrder K] in
theorem Served.of_read {α : Type} {f : α → Answer K V} {x : α}
    {r : Except MapError α} (hs : e.AllHold limit) (hw : e'.Within limit)
    (hm : e.maps[m]? = some state) (hq : q.target? = some m)
    (hcheckpoint : ∀ m, q ≠ .checkpoint m) (hafter : ∀ s : OrderedMap K V, s.after q = s)
    (hk : Keeps limit e e') (ha : a = .of f r)
    (hspec : r = .error (.storage (.io .injected)) ∧ e'.Unread e m ∨ r = .ok x)
    (haccepts : (state.home.ordered (e.contents m)).Accepts q (f x)) : Served limit q a e e' := by
  refine .of_keeps hs hw hm hq hk (fun m' _ hq' => absurd hq' (hcheckpoint m')) hafter ?_
  rcases hspec with ⟨rfl, hunread⟩ | rfl
  · exact Or.inl ⟨m, hq, Or.inl ⟨ha, hunread⟩⟩
  · exact Or.inr (ha ▸ haccepts)

omit [Std.IsLinearOrder K] in
theorem served_checkpoint (hs : e.AllHold limit) (hw : e'.Within limit)
    (hm : e.maps[m]? = some state) (h : e.perform (.checkpoint m) = (a, e')) :
    Served limit (.checkpoint m) a e e' := by
  rcases hrun : Act.run (snapshot m) e with ⟨r, e₁⟩
  simp only [perform, hrun, Prod.map, id, Prod.mk.injEq] at h
  obtain ⟨rfl, rfl⟩ := h
  rcases snapshot_spec hs hw hm hrun with ⟨cause, rfl, hunwritten⟩ | ⟨snapshot, rfl, hdescribes⟩
  · exact .of_keeps hs hw hm rfl (keeps_snapshot hrun) (by simp [Answer.of]) (fun _ => rfl)
      (Or.inl ⟨m, rfl, Or.inr ⟨cause, rfl, rfl, hunwritten⟩⟩)
  · refine .of_keeps hs hw hm rfl (keeps_snapshot hrun) (fun m' snapshot' hq hanswer => ?_)
      (fun _ => rfl) (Or.inr ⟨snapshot, rfl⟩)
    obtain rfl := Request.checkpoint.inj hq
    obtain rfl := Answer.snapshot.inj hanswer
    exact hdescribes

omit [Std.IsLinearOrder K] in
theorem served_openScan (hs : e.AllHold limit) (hw : e'.Within limit)
    (hm : e.maps[m]? = some state) (h : e.perform (.openScan m first last) = (a, e')) :
    Served limit (.openScan m first last) a e e' := by
  rcases hopen : e.openScan m first last with cause | e₁ <;>
    simp only [perform, hopen, Prod.mk.injEq] at h <;> obtain ⟨rfl, rfl⟩ := h
  all_goals
    have hscan := hopen
    unfold openScan scan at hscan
  · refine .of_keeps hs hw hm rfl (.refl limit _) (by simp) (fun _ => rfl) (Or.inr ?_)
    split at hscan
    · rename_i hnone
      obtain rfl := Except.error.inj hscan
      exact (if_pos hnone).symm
    · simp [bind, Except.bind, pure, Except.pure] at hscan
  · refine .of_keeps hs hw hm rfl (keeps_openScan hopen) (by simp) (fun _ => rfl) (Or.inr ?_)
    split at hscan
    · simp [bind, Except.bind] at hscan
    · rename_i hsome
      exact (if_neg hsome).symm

theorem served_next {n : Nat} (hs : e.AllHold limit) (hw : e'.Within limit)
    (h : e.perform (.next n) = (a, e')) : Served limit (.next n) a e e' := by
  rcases hnext : e.next n with ⟨value, e₁⟩
  have he : e₁ = e' := by
    simp only [perform, hnext] at h
    split at h <;> simp_all
  subst he
  exact .of_aside hs hw (keeps_next hnext) rfl trivial rfl

omit [Lossless K] [Lossless V] [Std.IsLinearOrder K] in
theorem served_make {sizing : Sizing} {policy : Nat} (hs : e.AllHold limit)
    (h : e.perform (.make sizing policy) = (a, e')) :
    Served limit (.make sizing policy) a e e' := by
  cases hbudget : sizing.budget with
  | error cause =>
    simp only [perform, addMap_of_error hbudget] at h
    obtain ⟨rfl, rfl⟩ := Prod.mk.inj h
    refine ⟨List.suffix_refl _, List.prefix_refl _, hs, fun _ _ _ h => h, fun _ => .stay _,
      fun _ _ _ => rfl, by simp, Or.inr ⟨?_, ?_⟩⟩
    · simp [Reference.Accepts, Request.target?, hbudget]
    · simp [Reference.after, Request.target?, hbudget]
  | ok budget =>
    have hadd := addMap_of_ok hbudget policy 0 e
    simp only [perform, hadd] at h
    obtain ⟨rfl, rfl⟩ := Prod.mk.inj h
    obtain ⟨hevents, hhomes, hholds, hpages, hlayout, budget', hbudget', hmirror⟩ :=
      addMap_spec hs hadd
    obtain rfl := Except.ok.inj (hbudget.symm.trans hbudget')
    refine ⟨hevents, hhomes, hholds, hpages, fun m => hlayout m ▸ .stay _,
      fun _ _ => hlayout, by simp, Or.inr ⟨?_, ?_⟩⟩
    · simp [Reference.Accepts, Request.target?, hbudget]
    · simp [Reference.after, Request.target?, hbudget, hmirror]

theorem served_range (hs : e.AllHold limit) (hw : e'.Within limit) (hm : e.maps[m]? = some state)
    (h : e.perform (.range m first last) = (a, e')) :
    Served limit (.range m first last) a e e' := by
  rcases hrun : Act.run (valuesBetween m first last) e with ⟨r, e₁⟩
  simp only [perform, hrun, Prod.map, id, Prod.mk.injEq] at h
  obtain ⟨rfl, rfl⟩ := h
  by_cases hnone : first.isNone ∧ last.isNone
  · obtain ⟨rfl, rfl⟩ : first = none ∧ last = none := by simpa using hnone
    obtain ⟨rfl, rfl⟩ := Prod.mk.inj ((valuesBetween_unbounded m e).symm.trans hrun)
    exact .of_keeps hs hw hm rfl (.refl limit _) (by simp) (fun _ => rfl) (Or.inr rfl)
  · exact .of_read hs hw hm rfl (by simp) (fun _ => rfl) (keeps_valuesBetween hrun) rfl
      (valuesBetween_spec hs hw hm hnone hrun) (if_neg hnone).symm

omit [Lossless K] [Lossless V] [Std.IsLinearOrder K] in
theorem Served.of_cleared (hm : e.maps[m]? = some state) (hc : Changes limit m e e')
    (hlayout : e'.layout m = []) (hq : q = .clear m ∨ q = .drop m) :
    Served limit q .done e e' := by
  have hcontents : e'.contents m = [] := by rw [contents, hlayout]; rfl
  rcases hq with rfl | rfl <;>
    exact .of_changes hm rfl hc (hlayout ▸ .clear (by simp) _) (by simp) (by simp)
      (Or.inr ⟨rfl, by rw [hcontents]; rfl⟩)

omit [Lossless K] [Lossless V] [Std.IsLinearOrder K] in
/-- A request for a map that there is not changes nothing. -/
theorem Served.of_missing (hs : e.AllHold limit) (hq : q.target? = some m)
    (hm : e.maps.length ≤ m) : Served limit q .missing e e := by
  have hnone : e.mirror[m]? = none := by
    rw [getElem?_mirror, List.getElem?_eq_none hm]
    rfl
  refine ⟨List.suffix_refl _, List.prefix_refl _, hs, fun _ _ _ hread => hread, fun _ => .stay _,
    fun _ _ _ => rfl, by simp, Or.inr ⟨?_, ?_⟩⟩
  · unfold Reference.Accepts
    simp only [hq, hnone]
  · unfold Reference.after
    simp only [hq]
    exact (List.modify_eq_self (by simpa [mirror] using hm)).symm

/-- What comes of serving a request. -/
theorem serve_spec (hs : e.AllHold limit) (hw : e'.Within limit) (h : e.serve q = (a, e')) :
    Served limit q a e e' := by
  unfold serve at h
  split at h
  · rename_i htarget
    have hmap (m : Nat) (hq : q.target? = some m) : ∃ state, e.maps[m]? = some state := by
      have hlt : m < e.maps.length := by simpa [hq] using htarget
      exact ⟨_, List.getElem?_eq_getElem hlt⟩
    -- a request that reads a map comes down to `Served.of_read`, one for no map to
    -- `Served.of_aside`
    cases q with
    | make sizing policy => exact served_make hs h
    | put m key value =>
      obtain ⟨state, hm⟩ := hmap m rfl
      exact served_put hs hw hm h
    | remove m key =>
      obtain ⟨state, hm⟩ := hmap m rfl
      exact served_remove hs hw hm h
    | get m key =>
      obtain ⟨state, hm⟩ := hmap m rfl
      obtain ⟨rfl, rfl⟩ := Prod.mk.inj h
      exact .of_read hs hw hm rfl (by simp) (fun _ => rfl) (keeps_get? rfl) rfl
        (get?_spec hs hw hm rfl) rfl
    | search m key =>
      obtain ⟨state, hm⟩ := hmap m rfl
      rcases hrun : Act.run (valuesAt m key) e with ⟨r, e₁⟩
      simp only [perform, hrun, Prod.map, id, Prod.mk.injEq] at h
      obtain ⟨rfl, rfl⟩ := h
      exact .of_read hs hw hm rfl (by simp) (fun _ => rfl) (keeps_valuesBetween hrun) rfl
        (valuesAt_spec hs hw hm hrun) rfl
    | contains m key =>
      obtain ⟨state, hm⟩ := hmap m rfl
      obtain ⟨rfl, rfl⟩ := Prod.mk.inj h
      exact .of_read hs hw hm rfl (by simp) (fun _ => rfl) (keeps_contains rfl) rfl
        (contains_spec hs hw hm rfl) rfl
    | range m first last =>
      obtain ⟨state, hm⟩ := hmap m rfl
      exact served_range hs hw hm h
    | checkpoint m =>
      obtain ⟨state, hm⟩ := hmap m rfl
      exact served_checkpoint hs hw hm h
    | clear m =>
      obtain ⟨state, hm⟩ := hmap m rfl
      obtain ⟨rfl, rfl⟩ := Prod.mk.inj h
      obtain ⟨hc, hlayout, -⟩ := clear_spec hs hm
      exact .of_cleared hm hc hlayout (Or.inl rfl)
    | drop m =>
      obtain ⟨state, hm⟩ := hmap m rfl
      obtain ⟨rfl, rfl⟩ := Prod.mk.inj h
      obtain ⟨hc, hlayout⟩ := drop_spec hs hm
      exact .of_cleared hm hc hlayout (Or.inr rfl)
    | openScan m first last =>
      obtain ⟨state, hm⟩ := hmap m rfl
      exact served_openScan hs hw hm h
    | next n => exact served_next hs hw h
    | closeScan n =>
      obtain ⟨rfl, rfl⟩ := Prod.mk.inj h
      exact .of_aside hs hw (keeps_closeScan n) rfl rfl rfl
    | evict page =>
      obtain ⟨rfl, rfl⟩ := Prod.mk.inj h
      exact .of_aside hs hw (keeps_evict page) rfl rfl rfl
    | report report policy page =>
      cases report <;> obtain ⟨rfl, rfl⟩ := Prod.mk.inj h
      · exact .of_aside hs hw (keeps_addPage policy page) rfl rfl rfl
      · exact .of_aside hs hw (keeps_hitPage policy page) rfl rfl rfl
      · exact .of_aside hs hw (keeps_removePage policy page) rfl rfl rfl
    | plan faults =>
      obtain ⟨rfl, rfl⟩ := Prod.mk.inj h
      exact .of_aside hs hw (keeps_plan faults) rfl rfl rfl
  · rename_i htarget
    obtain ⟨rfl, rfl⟩ := Prod.mk.inj h
    cases hq : q.target? with
    | none => simp [hq] at htarget
    | some m => exact .of_missing hs hq (by simpa [hq] using htarget)

/-! ### Events and scans -/

omit [Std.IsLinearOrder K] [Lossless K] [Lossless V] in
/-- What was recorded stays recorded, and no scan goes away. -/
theorem serve_frame (e : Engine K V) (q : Request K V) :
    e.events <:+ (e.serve q).2.events ∧ e.scans.length ≤ (e.serve q).2.scans.length ∧
      ∀ n < e.scans.length, q ≠ .next n → q ≠ .closeScan n →
        (e.serve q).2.scans[n]? = e.scans[n]? := by
  have hext {e' : Engine K V} (h : e.Extends e') : e.events <:+ e'.events ∧
      e.scans.length ≤ e'.scans.length ∧ ∀ n < e.scans.length, q ≠ .next n → q ≠ .closeScan n →
        e'.scans[n]? = e.scans[n]? :=
    ⟨h.events, h.scans ▸ Nat.le_refl _, fun n _ _ _ => congrArg (·[n]?) h.scans⟩
  by_cases hnext : ∃ n, q = .next n
  · obtain ⟨n, rfl⟩ := hnext
    obtain ⟨hevents, hlength, hothers⟩ := next_frame n e
    rw [serve_next]
    exact ⟨hevents, hlength.ge, fun i _ hi _ => hothers i fun h => hi (h ▸ rfl)⟩
  unfold serve
  split
  · cases q with
    | make sizing policy =>
      rcases hadd : e.addMap sizing policy 0 with cause | e₁ <;> rw [perform, hadd]
      · exact hext (.refl e)
      · obtain ⟨budget, -, rfl⟩ := addMap_eq_ok hadd
        exact hext ⟨List.suffix_refl _, rfl⟩
    | put m key value => exact hext (records_put m key value e)
    | remove m key => exact hext (records_remove m key e)
    | get m key => exact hext (records_get? m key e)
    | search m key => exact hext (records_valuesBetween m (some key) (some key) e)
    | contains m key => exact hext (records_contains m key e)
    | range m first last => exact hext (records_valuesBetween m first last e)
    | checkpoint m => exact hext (records_snapshot m e)
    | clear m => exact hext (extends_clear m e)
    | drop m => exact hext (extends_drop m e)
    | openScan m first last =>
      rcases hopen : e.openScan m first last with cause | e₁ <;> rw [perform, hopen]
      · exact hext (.refl e)
      · obtain ⟨s, -, rfl⟩ := openScan_eq_ok hopen
        exact ⟨List.suffix_refl _, by simp, fun n hn _ _ => List.getElem?_append_left hn⟩
    | next n => exact absurd ⟨n, rfl⟩ hnext
    | closeScan n =>
      refine ⟨List.suffix_refl _, by simp [perform, closeScan], fun i _ _ hi => ?_⟩
      have hne : n ≠ i := fun h => hi (h ▸ rfl)
      simp [perform, closeScan, hne]
    | evict page => exact hext (extends_evict page e)
    | report report policy page =>
      cases report
      · exact hext (extends_addPage policy page e)
      · exact hext (extends_hitPage policy page e)
      · exact hext (extends_removePage policy page e)
    | plan faults => exact hext ⟨List.suffix_refl _, rfl⟩
  · exact hext (.refl e)

omit [Std.IsLinearOrder K] [Lossless K] [Lossless V] in
theorem suffix_serve (h : e.serve q = (a, e')) : e.events <:+ e'.events := by
  have hframe := (serve_frame e q).1
  rwa [h] at hframe

end Engine

end PagedMap
