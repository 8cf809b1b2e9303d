import Mathlib
import PagedMap.Proofs.Residence

/-!
# What stands in an engine

The layout of a map (`Engine.layout`) lists the blocks of its directory, each with its entries
wherever they are.  All maps hold their layouts (`Engine.AllHold`) if for every map this list has
exactly the directory of the map, all its blocks are coherent, they tile the keys, and they belong
to the map.  Since a block knows the owner of its pages, no block belongs to two maps.

A request on one map may change the layout of that map (`Engine.Changes`).  A paging step changes no
layout (`Keeps.layout`), and an edit changes one if it leaves the blocks of all other owners
(`Changes.of_edit`).
-/

namespace PagedMap.Engine

variable {K V : Type} [Wire K] [Wire V] [LE K] [DecidableLE K]

/-- The blocks that a directory leads to, settled. -/
def layoutOf (e : Engine K V) (d : Directory K) : Layout K V :=
  d.refs.filterMap fun ref => (e.blocks[ref]?).map fun b => ⟨ref, b.settled (e.content b)⟩

/-- The blocks of a map, settled. -/
def layout (e : Engine K V) (m : Nat) : Layout K V :=
  match e.maps[m]? with
  | some state => e.layoutOf state.directory
  | none => []

/-- The entries of a map. -/
def contents (e : Engine K V) (m : Nat) : Entries K V := (e.layout m).contents

/-- The map has this layout. -/
structure Holds (e : Engine K V) (m : Nat) (state : MapState K) (t : Layout K V) : Prop where
  directory : state.directory = t.directory
  shows : ∀ s ∈ t, e.Shows s
  homes : ∀ s ∈ t, s.block.home = state.home
  owner : state.home.owner = m + 1
  store : state.home.store = 0
  tiled : t.Tiled state.lastId

/-- Pages are kept for good, and every map holds its layout. -/
structure AllHold (limit : Option Nat) (e : Engine K V) : Prop where
  roomy : e.Roomy limit
  holds : ∀ (m : Nat) (state : MapState K), e.maps[m]? = some state → e.Holds m state (e.layout m)

variable {e e' e'' : Engine K V} {m m' : Nat} {state state' : MapState K} {s : Stretch K V}
  {t t' : Layout K V} {limit : Option Nat} {ref : BlockRef} {b : Block K V}

theorem Shows.lt_length (h : e.Shows s) : s.ref < e.blocks.length := by
  obtain ⟨b, hb, -⟩ := h
  exact (List.getElem?_eq_some_iff.1 hb).1

theorem Shows.home_eq {s' : Stretch K V} (h : e.Shows s) (h' : e.Shows s') (href : s.ref = s'.ref) :
    s.block.home = s'.block.home := by
  obtain ⟨b, hb, -, hs⟩ := h
  obtain ⟨b', hb', -, hs'⟩ := h'
  rw [href] at hb
  obtain rfl := Option.some.inj (hb.symm.trans hb')
  rw [hs, hs']

/-- Every reference of a directory is that of a block of the layout. -/
theorem Holds.exists_of_mem (h : e.Holds m state t) (href : ref ∈ state.directory.refs) :
    ∃ s ∈ t, s.ref = ref ∧ ∃ b, e.blocks[ref]? = some b ∧ e.Coherent b ∧
      s.block = b.settled (e.content b) := by
  rw [h.directory, Layout.refs_directory] at href
  obtain ⟨s, hs, rfl⟩ := List.mem_map.1 href
  exact ⟨s, hs, rfl, h.shows s hs⟩

theorem Holds.layoutOf_eq (h : e.Holds m state t) : e.layoutOf state.directory = t := by
  have hsome : ∀ s ∈ t, ((e.blocks[s.ref]?).map fun b =>
      (⟨s.ref, b.settled (e.content b)⟩ : Stretch K V)) = some s := by
    intro s hs
    obtain ⟨b, hb, -, hblock⟩ := h.shows s hs
    simp [hb, ← hblock]
  rw [layoutOf, h.directory, Layout.refs_directory, List.filterMap_map]
  clear h
  induction t with
  | nil => rfl
  | cons s t ih =>
    have hs := hsome s (by simp)
    have ht := ih fun s hs => hsome s (by simp [hs])
    simp only [List.filterMap_cons, Function.comp, hs] at ht ⊢
    rw [ht]

/-- A map has one layout only. -/
theorem Holds.layout_eq (h : e.Holds m state t) (hm : e.maps[m]? = some state) :
    e.layout m = t := by
  rw [layout, hm]
  exact h.layoutOf_eq

theorem AllHold.of_holds (hroomy : e.Roomy limit)
    (h : ∀ (m : Nat) (state : MapState K), e.maps[m]? = some state → ∃ t, e.Holds m state t) :
    e.AllHold limit := by
  refine ⟨hroomy, fun m state hm => ?_⟩
  obtain ⟨t, ht⟩ := h m state hm
  exact (ht.layout_eq hm).symm ▸ ht

theorem layout_of_none (h : e.maps[m]? = none) : e.layout m = [] := by
  rw [layout, h]

theorem AllHold.shows_of_mem (h : e.AllHold limit) (hs : s ∈ e.layout m) : e.Shows s := by
  cases hm : e.maps[m]? with
  | none => simp [layout_of_none hm] at hs
  | some state => exact (h.holds m state hm).shows s hs

theorem AllHold.sorted_contents [Std.IsLinearOrder K] (h : e.AllHold limit) (m : Nat) :
    (e.contents m).Sorted := by
  rw [contents]
  cases hm : e.maps[m]? with
  | none =>
    rw [layout_of_none hm]
    exact List.Pairwise.nil
  | some state => exact (h.holds m state hm).tiled.sorted_contents

/-! ### Blocks that stay -/

theorem Shows.of_frame (h : e.Shows s) (hblocks : e'.blocks[s.ref]? = e.blocks[s.ref]?)
    (hstores : e'.stores = e.stores) (hvolume : e'.volume = e.volume) : e'.Shows s := by
  obtain ⟨b, hb, hcoh, hs⟩ := h
  have hread : ∀ store page es, e.readPage store page = .ok es → e'.readPage store page = .ok es :=
    fun store page es hread => by rwa [readPage, hstores, hvolume]
  obtain ⟨hcoh', hcontent⟩ := hcoh.mono hread
  exact ⟨b, hblocks.trans hb, hcoh', hcontent.symm ▸ hs⟩

/-- A block in memory that is not on its page shows its entries. -/
theorem shows_of_dirty {es : Entries K V} (hb : e.blocks[ref]? = some b) (hes : b.entries = some es)
    (hdirty : b.dirty = true) (hsorted : es.Sorted) : e.Shows ⟨ref, b.settled es⟩ := by
  have hcontent : e.content b = es := content_of_some hes
  refine ⟨b, hb, ⟨hcontent.symm ▸ hsorted, fun _ => by simp [hes], fun hclean => ?_⟩,
    by rw [hcontent]⟩
  simp [hdirty] at hclean

/-! ### Changes -/

/-- A request that succeeds or fails changes at most the layout of one map. -/
structure Changes (limit : Option Nat) (m : Nat) (e e' : Engine K V) : Prop where
  events : e.events <:+ e'.events
  homes : e'.maps.map (·.home) = e.maps.map (·.home)
  allHold : e'.AllHold limit
  pages : ∀ store page es, e.readPage store page = .ok es → e'.readPage store page = .ok es
  others : ∀ m', m' ≠ m → e'.layout m' = e.layout m'

theorem Changes.refl (h : e.AllHold limit) (m : Nat) : Changes limit m e e :=
  ⟨List.suffix_refl _, rfl, h, fun _ _ _ hread => hread, fun _ _ => rfl⟩

theorem Changes.trans (h : Changes limit m e e') (h' : Changes limit m e' e'') :
    Changes limit m e e'' :=
  ⟨h.events.trans h'.events, h'.homes.trans h.homes, h'.allHold,
    fun store page es hread => h'.pages store page es (h.pages store page es hread),
    fun m' hne => (h'.others m' hne).trans (h.others m' hne)⟩

/-- An edit of one map that leaves the blocks of all other owners changes the layout of that map. -/
theorem Changes.of_edit (hs : e.AllHold limit) (hm : e.maps[m]? = some state)
    (hm' : e'.maps[m]? = some state') (hmaps : ∀ m', m' ≠ m → e'.maps[m']? = e.maps[m']?)
    (hhome : state'.home = state.home)
    (hstores : e'.stores = e.stores) (hvolume : e'.volume = e.volume)
    (hevents : e.events <:+ e'.events)
    (hothers : ∀ s : Stretch K V, s.block.home.owner ≠ m + 1 → e.Shows s → e'.Shows s)
    (hholds : e'.Holds m state' t') : Changes limit m e e' ∧ e'.layout m = t' := by
  have hother (m' : Nat) (hne : m' ≠ m) (state : MapState K) (hget : e.maps[m']? = some state) :
      e'.Holds m' state (e.layout m') := by
    have hh := hs.holds m' state hget
    refine ⟨hh.directory, fun s hmem => hothers s ?_ (hh.shows s hmem), hh.homes, hh.owner,
      hh.store, hh.tiled⟩
    rw [hh.homes s hmem, hh.owner]
    omega
  refine ⟨⟨hevents, ?_, .of_holds (hs.roomy.congr hstores hvolume hevents) fun m' state hget' => ?_,
    fun store page es hread => ?_, fun m' hne => ?_⟩, hholds.layout_eq hm'⟩
  · refine List.ext_getElem? fun i => ?_
    rw [List.getElem?_map, List.getElem?_map]
    by_cases hi : i = m
    · rw [hi, hm, hm', Option.map_some, Option.map_some, hhome]
    · rw [hmaps i hi]
  · by_cases hne : m' = m
    · subst hne
      obtain rfl := Option.some.inj (hm'.symm.trans hget')
      exact ⟨t', hholds⟩
    · exact ⟨_, hother m' hne state (hmaps m' hne ▸ hget')⟩
  · rwa [readPage, hstores, hvolume]
  · cases hnone : e.maps[m']? with
    | none => rw [layout_of_none hnone, layout_of_none (hmaps m' hne ▸ hnone)]
    | some state => exact (hother m' hne state hnone).layout_eq (hmaps m' hne ▸ hnone)

theorem changes_record (hs : e.AllHold limit) (hm : e.maps[m]? = some state) (event : Event K V) :
    Changes limit m e (e.record event) := by
  have hh := hs.holds m state hm
  have hget : (e.record event).maps[m]? = some state := hm
  have hkept (s : Stretch K V) (h : e.Shows s) : (e.record event).Shows s := h.of_frame rfl rfl rfl
  exact (Changes.of_edit hs hm hget (fun _ _ => rfl) rfl rfl rfl (List.suffix_cons _ _)
    (fun s _ h => hkept s h) ⟨hh.directory, fun s hmem => hkept s (hh.shows s hmem), hh.homes,
      hh.owner, hh.store, hh.tiled⟩).1

/-- A block of a map may be exchanged for another one that keeps the layout tiled. -/
theorem Changes.of_setBlock {pre post : Layout K V} {x : Block K V} (hs : e.AllHold limit)
    (hm : e.maps[m]? = some state) (ht : e.layout m = pre ++ s :: post)
    (hshows : (e.setBlock s.ref b).Shows ⟨s.ref, x⟩) (hhome : x.home = s.block.home)
    (hstart : x.start = s.block.start)
    (htiled : Layout.Tiled state.lastId (pre ++ ⟨s.ref, x⟩ :: post)) :
    Changes limit m e (e.setBlock s.ref b) ∧
      (e.setBlock s.ref b).layout m = pre ++ ⟨s.ref, x⟩ :: post := by
  have hh : e.Holds m state (pre ++ s :: post) := ht ▸ hs.holds m state hm
  have hkept (y : Stretch K V) (hy : e.Shows y) (hne : y.ref ≠ s.ref) :
      (e.setBlock s.ref b).Shows y :=
    hy.of_frame (List.getElem?_set_ne hne.symm) rfl rfl
  obtain ⟨hpre, hpost⟩ := hh.tiled.ref_ne
  have hshown := hh.shows
  have hhomes := hh.homes
  rw [List.forall_mem_append, List.forall_mem_cons] at hshown hhomes
  refine Changes.of_edit hs hm hm (fun _ _ => rfl) rfl rfl rfl (List.suffix_refl _)
    (fun y hne hy => ?_) ⟨?_, ?_, ?_, hh.owner, hh.store, htiled⟩
  · refine hkept y hy fun href => hne ?_
    rw [hy.home_eq hshown.2.1 href, hhomes.2.1, hh.owner]
  · rw [hh.directory]
    simp [hstart]
  · rw [List.forall_mem_append, List.forall_mem_cons]
    exact ⟨fun y hy => hkept y (hshown.1 y hy) (hpre y hy), hshows,
      fun y hy => hkept y (hshown.2.2 y hy) (hpost y hy)⟩
  · rw [List.forall_mem_append, List.forall_mem_cons]
    exact ⟨hhomes.1, hhome.trans hhomes.2.1, hhomes.2.2⟩

/-! ### Paging -/

variable [Lossless K] [Lossless V]

theorem Holds.keeps (h : e.Holds m state t) (hk : Keeps limit e e') (hw : e'.Within limit)
    (hr : e.Roomy limit) : e'.Holds m state t :=
  ⟨h.directory, fun s hs => hk.shows hw hr (h.shows s hs), h.homes, h.owner, h.store, h.tiled⟩

theorem Keeps.allHold (hk : Keeps limit e e') (hw : e'.Within limit) (hs : e.AllHold limit) :
    e'.AllHold limit := by
  refine .of_holds (hk.roomy hw hs.roomy) fun m state hm => ?_
  rw [hk.maps] at hm
  exact ⟨_, (hs.holds m state hm).keeps hk hw hs.roomy⟩

/-- Paging does not change any layout. -/
theorem Keeps.layout (hk : Keeps limit e e') (hw : e'.Within limit)
    (hs : e.AllHold limit) (m : Nat) : e'.layout m = e.layout m := by
  cases hm : e.maps[m]? with
  | none => rw [layout_of_none hm, layout_of_none (hk.maps ▸ hm)]
  | some state => exact ((hs.holds m state hm).keeps hk hw hs.roomy).layout_eq (hk.maps ▸ hm)

theorem Keeps.changes (hk : Keeps limit e e') (hw : e'.Within limit)
    (hs : e.AllHold limit) (m : Nat) : Changes limit m e e' :=
  ⟨hk.events, by rw [hk.maps], hk.allHold hw hs, hk.pages hw hs.roomy,
    fun m' _ => hk.layout hw hs m'⟩

/-- The last that happened since `e` is that a page store refused to read the page of a block of the
map, which is not in memory. -/
def Unread (e' e : Engine K V) (m : Nat) : Prop :=
  ∃ s ∈ e.layout m, ∃ b earlier, e'.blocks[s.ref]? = some b ∧ b.entries = none ∧
    e'.events = .pageLoaded b.home.store b.page (.error (.io .injected)) :: earlier ∧
    e.events <:+ earlier

omit [Lossless K] [Lossless V] in
theorem Unread.refusedLoads_lt (h : e'.Unread e m) : e.refusedLoads < e'.refusedLoads := by
  obtain ⟨s, -, b, earlier, -, -, hevents, hsuffix⟩ := h
  rw [refusedLoads, refusedLoads, hevents, List.countP_cons_of_pos rfl]
  exact Nat.lt_succ_of_le (List.Sublist.countP_le hsuffix.sublist)

theorem Unread.of_keeps (h : e''.Unread e' m) (hk : Keeps limit e e') (hw : e'.Within limit)
    (hs : e.AllHold limit) : e''.Unread e m := by
  obtain ⟨s, hmem, b, earlier, hb, hnone, hevents, hsuffix⟩ := h
  exact ⟨s, hk.layout hw hs m ▸ hmem, b, earlier, hb, hnone, hevents, hk.events.trans hsuffix⟩

/-- What comes of asking for the entries of a block of a map. -/
theorem access_of_mem {r : Except MapError (Entries K V)} (hs : e.AllHold limit)
    (hm : e.maps[m]? = some state) (hmem : s ∈ e.layout m) (hb : e.blocks[s.ref]? = some b)
    (h : Act.run (access s.ref b) e = (r, e')) :
    Keeps limit e e' ∧ (r = .error (.storage (.io .injected)) ∧ e'.Unread e m ∨
      r = .ok s.block.held ∧ e'.blocks[s.ref]? = some (b.loaded s.block.held)) := by
  obtain ⟨hk, hcases⟩ : Keeps limit e e' ∧ _ := access_spec hb h
  have hh := hs.holds m state hm
  obtain ⟨b', hb', hcoh, hsb⟩ := hh.shows s hmem
  obtain rfl := Option.some.inj (hb.symm.trans hb')
  refine ⟨hk, ?_⟩
  rcases hcases with ⟨cause, hr, hnone, hblocks, hfailed⟩ | ⟨es, rfl, hloaded⟩
  · obtain ⟨st, hst, -⟩ := hs.roomy
    have hstore : b.home.store = 0 := by
      rw [← hh.store, ← hh.homes s hmem, hsb]
      rfl
    obtain ⟨rfl, hevents⟩ := hfailed hcoh (by simp [hstore, hst])
    exact Or.inl ⟨hr, s, hmem, b, e.events, hblocks ▸ hb, hnone, hevents, List.suffix_refl _⟩
  · have hheld : s.block.held = es := by rw [hsb, access_eq_ok h]; rfl
    exact Or.inr ⟨by rw [hheld], by rw [hloaded, hheld]⟩

end PagedMap.Engine
