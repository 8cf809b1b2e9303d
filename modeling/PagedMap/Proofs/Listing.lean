import Mathlib
import PagedMap.Proofs.Checkpoint
import PagedMap.Proofs.Residence

/-!
# The blocks that maps list

What a map keeps about its blocks agrees with the blocks, whatever is on pages (`Engine.Tidy`): the
directory names blocks of the map that were not given up, under the numbers they have, and
successors are listed themselves.  `Engine.Lists` names the blocks that are within reach of a map.

Moving blocks in and out of memory does not touch any of this (`Engine.Paging`), and a call of a
page store or an eviction moves one block at most and tells no policy (`Engine.Quiet`).  What an
eviction does to a listed block is said by `Engine.evict_cases`.
-/

namespace PagedMap

variable {K V : Type}

/-- The number of the block that starts here. -/
def Start.id : Start K → Nat
  | head => 0
  | .at _ id => id

/-- What stays of a block while it moves in and out of memory. -/
def Block.frame (b : Block K V) : Block K V :=
  { b with entries := none, dirty := false, page := noPage, tracked := false }

/-- Whether a policy is told about a page. -/
def Event.isReport : Event K V → Bool
  | reported .. => true
  | _ => false

namespace Block

variable {b b' : Block K V}

theorem frame_loaded (b : Block K V) (entries : Entries K V) : (b.loaded entries).frame = b.frame :=
  rfl

theorem home_eq_of_frame (h : b'.frame = b.frame) : b'.home = b.home := congrArg (·.home) h

theorem id_eq_of_frame (h : b'.frame = b.frame) : b'.id = b.id := congrArg (·.id) h

theorem next_eq_of_frame (h : b'.frame = b.frame) : b'.next = b.next := congrArg (·.next) h

theorem released_eq_of_frame (h : b'.frame = b.frame) : b'.released = b.released :=
  congrArg (·.released) h

end Block

namespace Engine

/-- Map `m` lists the block under the reference. -/
def Lists (e : Engine K V) (m : Nat) (ref : BlockRef) (b : Block K V) : Prop :=
  ∃ state, e.maps[m]? = some state ∧ ref ∈ state.directory.refs ∧ e.blocks[ref]? = some b

/-- The blocks that a map lists. -/
def listed (e : Engine K V) (m : Nat) : Set BlockRef := {r | ∃ b, e.Lists m r b}

/-- What map `m` keeps about its blocks agrees with them. -/
structure Listing (e : Engine K V) (m : Nat) (state : MapState K) : Prop where
  owner : state.home.owner = m + 1
  store : state.home.store < e.stores.length
  heads : ∀ x ∈ state.directory, x.1.id = 0 → x.1 = .head
  ids : ∀ x ∈ state.directory, x.1.id ≤ state.lastId
  blocks : ∀ x ∈ state.directory, ∃ b, e.blocks[x.2]? = some b ∧ b.home = state.home ∧
    b.id = x.1.id ∧ b.released = false ∧ ∀ next ∈ b.next, next ∈ state.directory.refs

/-- What the maps keep about their blocks agrees with them. -/
def Tidy (e : Engine K V) : Prop := ∀ m state, e.maps[m]? = some state → e.Listing m state

variable {e e' e'' : Engine K V} {m m' : Nat} {state : MapState K} {ref : BlockRef}
  {b b' : Block K V}

/-! ### Listed blocks -/

theorem Lists.blocks_eq (h : e.Lists m ref b) : e.blocks[ref]? = some b := by
  obtain ⟨_, -, -, hb⟩ := h
  exact hb

/-- What is known of a listed block. -/
theorem Tidy.of_lists (ht : e.Tidy) (h : e.Lists m ref b) : ∃ state start, e.maps[m]? = some state ∧
    (start, ref) ∈ state.directory ∧ e.blocks[ref]? = some b ∧ b.home = state.home ∧
    b.home.owner = m + 1 ∧ b.home.store < e.stores.length ∧ b.id = start.id ∧ b.released = false ∧
    ∀ next ∈ b.next, next ∈ state.directory.refs := by
  obtain ⟨state, hm, href, hb⟩ := h
  obtain ⟨⟨start, ref'⟩, hx, rfl⟩ := List.mem_map.1 href
  have hl := ht m state hm
  obtain ⟨b', hb', hhome, hid, hreleased, hnext⟩ := hl.blocks _ hx
  obtain rfl : b' = b := Option.some.inj (hb'.symm.trans hb)
  exact ⟨state, start, hm, hx, hb, hhome, hhome ▸ hl.owner, hhome ▸ hl.store, hid, hreleased, hnext⟩

/-- If the other maps and their blocks stay, the engine is tidy if the one map is. -/
theorem Tidy.of_map (ht : e.Tidy) (hothers : ∀ i ≠ m, e'.maps[i]? = e.maps[i]?)
    (hstores : e'.stores.length = e.stores.length)
    (hblocks : ∀ i ≠ m, ∀ (r : BlockRef) (b : Block K V), e.Lists i r b → e'.blocks[r]? = some b)
    (hm : ∀ state, e'.maps[m]? = some state → e'.Listing m state) : e'.Tidy := by
  intro i state hi
  by_cases hne : i = m
  · subst hne
    exact hm state hi
  · have hi₀ := (hothers i hne).symm.trans hi
    have hlisting := ht i state hi₀
    refine ⟨hlisting.owner, hstores.symm ▸ hlisting.store, hlisting.heads, hlisting.ids,
      fun x hx => ?_⟩
    obtain ⟨b, hb, hrest⟩ := hlisting.blocks x hx
    exact ⟨b, hblocks i hne x.2 b ⟨state, hi₀, List.mem_map_of_mem hx, hb⟩, hrest⟩

/-- If the other maps stay and the one keeps its home, all do. -/
theorem homes_eq_of_map {state' : MapState K} (hothers : ∀ i ≠ m, e'.maps[i]? = e.maps[i]?)
    (hm : e.maps[m]? = some state) (hm' : e'.maps[m]? = some state')
    (hhome : state'.home = state.home) : e'.maps.map (·.home) = e.maps.map (·.home) := by
  refine List.ext_getElem? fun i => ?_
  simp only [List.getElem?_map]
  by_cases hne : i = m
  · rw [hne, hm, hm', Option.map_some, Option.map_some, hhome]
  · rw [hothers i hne]

/-- Every reference of a directory leads to a listed block. -/
theorem Tidy.exists_lists (ht : e.Tidy) (hm : e.maps[m]? = some state)
    (href : ref ∈ state.directory.refs) : ∃ b, e.Lists m ref b := by
  obtain ⟨x, hx, rfl⟩ := List.mem_map.1 href
  obtain ⟨b, hb, -⟩ := (ht m state hm).blocks x hx
  exact ⟨b, state, hm, href, hb⟩

theorem Tidy.exists_next (ht : e.Tidy) (h : e.Lists m ref b) {next : BlockRef}
    (hn : next ∈ b.next) : ∃ c, e.Lists m next c := by
  obtain ⟨state, start, hm, -, -, -, -, -, -, -, hnext⟩ := ht.of_lists h
  exact ht.exists_lists hm (hnext next hn)

theorem Tidy.released_eq (ht : e.Tidy) (h : e.Lists m ref b) : b.released = false := by
  obtain ⟨_, _, -, -, -, -, -, -, -, hreleased, -⟩ := ht.of_lists h
  exact hreleased

theorem Tidy.owner_eq (ht : e.Tidy) (h : e.Lists m ref b) : b.home.owner = m + 1 := by
  obtain ⟨_, _, -, -, -, -, howner, -⟩ := ht.of_lists h
  exact howner

theorem Tidy.store_lt (ht : e.Tidy) (h : e.Lists m ref b) : b.home.store < e.stores.length := by
  obtain ⟨_, _, -, -, -, -, -, hstore, -⟩ := ht.of_lists h
  exact hstore

/-- No two maps list the same block. -/
theorem Tidy.eq_of_lists (ht : e.Tidy) (h : e.Lists m ref b) (h' : e.Lists m' ref b') :
    m = m' ∧ b = b' := by
  obtain rfl : b = b' := by
    obtain ⟨_, -, -, hb⟩ := h
    obtain ⟨_, -, -, hb'⟩ := h'
    exact Option.some.inj (hb.symm.trans hb')
  have howner := ht.owner_eq h
  have howner' := ht.owner_eq h'
  exact ⟨by omega, rfl⟩

/-! ### Paging -/

/-- Blocks may have moved in or out of memory, and the maps stay. -/
structure Paging (e e' : Engine K V) : Prop where
  maps : e'.maps = e.maps
  stores : e'.stores.length = e.stores.length
  length : e'.blocks.length = e.blocks.length
  blocks : ∀ (ref : BlockRef) (b : Block K V), e.blocks[ref]? = some b →
    ∃ b', e'.blocks[ref]? = some b' ∧ b'.frame = b.frame

theorem Paging.refl (e : Engine K V) : Paging e e := ⟨rfl, rfl, rfl, fun _ b hb => ⟨b, hb, rfl⟩⟩

theorem Paging.trans (h : Paging e e') (h' : Paging e' e'') : Paging e e'' where
  maps := h'.maps.trans h.maps
  stores := h'.stores.trans h.stores
  length := h'.length.trans h.length
  blocks ref b hb := by
    obtain ⟨b', hb', hsame⟩ := h.blocks ref b hb
    obtain ⟨b'', hb'', hsame'⟩ := h'.blocks ref b' hb'
    exact ⟨b'', hb'', hsame'.trans hsame⟩

theorem Paging.of_blocks (hmaps : e'.maps = e.maps) (hstores : e'.stores.length = e.stores.length)
    (hblocks : e'.blocks = e.blocks) : Paging e e' :=
  ⟨hmaps, hstores, congrArg List.length hblocks, fun _ b hb => ⟨b, hblocks ▸ hb, rfl⟩⟩

theorem Paging.tidy (h : Paging e e') (ht : e.Tidy) : e'.Tidy := by
  intro m state hm
  have hl := ht m state (h.maps ▸ hm)
  refine ⟨hl.owner, h.stores.symm ▸ hl.store, hl.heads, hl.ids, fun x hx => ?_⟩
  obtain ⟨b, hb, hhome, hid, hreleased, hnext⟩ := hl.blocks x hx
  obtain ⟨b', hb', hsame⟩ := h.blocks _ b hb
  exact ⟨b', hb', (Block.home_eq_of_frame hsame).trans hhome,
    (Block.id_eq_of_frame hsame).trans hid, (Block.released_eq_of_frame hsame).trans hreleased,
    Block.next_eq_of_frame hsame ▸ hnext⟩

theorem Paging.lists (h : Paging e e') (hl : e.Lists m ref b) :
    ∃ b', e'.Lists m ref b' ∧ b'.frame = b.frame := by
  obtain ⟨state, hm, href, hb⟩ := hl
  obtain ⟨b', hb', hsame⟩ := h.blocks ref b hb
  exact ⟨b', ⟨state, h.maps.symm ▸ hm, href, hb'⟩, hsame⟩

/-- One block at most moved in or out of memory, and no policy was told. -/
structure Quiet (ref : BlockRef) (e e' : Engine K V) : Prop extends Paging e e' where
  policies : e'.policies = e.policies
  others : ∀ r ≠ ref, e'.blocks[r]? = e.blocks[r]?
  events : ∃ added, e'.events = added ++ e.events ∧ ∀ event ∈ added, event.isReport = false

theorem Quiet.refl (ref : BlockRef) (e : Engine K V) : Quiet ref e e :=
  ⟨.refl e, rfl, fun _ _ => rfl, [], rfl, by simp⟩

theorem Quiet.trans (h : Quiet ref e e') (h' : Quiet ref e' e'') : Quiet ref e e'' := by
  obtain ⟨added, hevents, hadded⟩ := h.events
  obtain ⟨added', hevents', hadded'⟩ := h'.events
  refine ⟨h.toPaging.trans h'.toPaging, h'.policies.trans h.policies,
    fun r hr => (h'.others r hr).trans (h.others r hr), added' ++ added, ?_, ?_⟩
  · rw [hevents', hevents, List.append_assoc]
  · rw [List.forall_mem_append]
    exact ⟨hadded', hadded⟩

/-- A step that records something besides a report and leaves the blocks is quiet. -/
theorem Quiet.of_blocks (hmaps : e'.maps = e.maps) (hstores : e'.stores.length = e.stores.length)
    (hblocks : e'.blocks = e.blocks) (hpolicies : e'.policies = e.policies)
    (hevents : ∃ event, e'.events = event :: e.events ∧ event.isReport = false) :
    Quiet ref e e' := by
  obtain ⟨event, hevents, hevent⟩ := hevents
  exact ⟨.of_blocks hmaps hstores hblocks, hpolicies, fun _ _ => by rw [hblocks], [event], hevents,
    by simpa using hevent⟩

theorem quiet_notify (ref : BlockRef) (notice : Notice) (e : Engine K V) :
    Quiet ref e (e.notify notice) :=
  .of_blocks rfl rfl rfl rfl ⟨_, rfl, rfl⟩

theorem quiet_setBlock (hb : e.blocks[ref]? = some b) (hsame : b'.frame = b.frame) :
    Quiet ref e (e.setBlock ref b') := by
  obtain ⟨hlt, -⟩ := List.getElem?_eq_some_iff.1 hb
  refine ⟨⟨rfl, rfl, List.length_set, fun r x hx => ?_⟩, rfl,
    fun r hr => List.getElem?_set_ne hr.symm, [], rfl, by simp⟩
  by_cases hr : r = ref
  · subst hr
    obtain rfl : b = x := Option.some.inj (hb.symm.trans hx)
    exact ⟨b', List.getElem?_set_self hlt, hsame⟩
  · exact ⟨x, (List.getElem?_set_ne (Ne.symm hr)).trans hx, rfl⟩

theorem paging_hitPage (policy : Nat) (page : Page BlockRef) (e : Engine K V) :
    Paging e (e.hitPage policy page) := by
  dsimp only [hitPage]
  split <;> exact .of_blocks rfl rfl rfl

theorem paging_removePage (policy : Nat) (page : Page BlockRef) (e : Engine K V) :
    Paging e (e.removePage policy page) := by
  dsimp only [removePage]
  split <;> exact .of_blocks rfl rfl rfl

theorem setBlock_self (hb : e.blocks[ref]? = some b) : e.setBlock ref b = e := by
  obtain ⟨hlt, rfl⟩ := List.getElem?_eq_some_iff.1 hb
  rw [setBlock, List.set_getElem_self]

/-- The entries of a block leave memory. -/
theorem quiet_forget (hb : e.blocks[ref]? = some b) :
    Quiet ref e { e with blocks := e.blocks.modify ref ({ · with entries := none }) } := by
  have hmodify :
      ({ e with blocks := e.blocks.modify ref ({ · with entries := none }) } : Engine K V) =
      e.setBlock ref { b with entries := none } := by
    rw [setBlock, List.modify_eq_set_getElem?, hb]
    rfl
  exact hmodify ▸ quiet_setBlock hb rfl

variable [Wire K] [Wire V]

theorem quiet_loadPage {store page : Nat} {r : Except StoreError (List (K × V))}
    (h : e.loadPage store page = (r, e')) (ref : BlockRef) :
    Quiet ref e e' ∧ e'.blocks = e.blocks := by
  unfold loadPage at h
  split at h
  · obtain ⟨-, rfl⟩ := Prod.mk.inj h
    exact ⟨.refl ref _, rfl⟩
  · obtain ⟨-, rfl⟩ := Prod.mk.inj h
    exact ⟨.of_blocks rfl List.length_set rfl rfl ⟨_, rfl, rfl⟩, rfl⟩

theorem quiet_createPage {store : Nat} {entries : List (K × V)} {r : Except StoreError Nat}
    (h : e.createPage store entries = (r, e')) (ref : BlockRef) : Quiet ref e e' := by
  unfold createPage at h
  split at h
  · obtain ⟨-, rfl⟩ := Prod.mk.inj h
    exact .refl ref _
  · obtain ⟨-, rfl⟩ := Prod.mk.inj h
    exact .of_blocks rfl List.length_set rfl rfl ⟨_, rfl, rfl⟩

theorem quiet_persist {r : Except MapError Unit} (h : Act.run (persist ref) e = (r, e')) :
    Quiet ref e e' ∧ ∀ b, e.blocks[ref]? = some b → ∃ b', e'.blocks[ref]? = some b' ∧
      b'.frame = b.frame ∧ b'.entries = b.entries ∧ b'.tracked = b.tracked := by
  rcases persist_cases h with ⟨-, rfl, -⟩ |
    ⟨b, es, hb, -, -, ⟨cause, hcreate, -⟩ | ⟨page, e₁, hcreate, -, rfl⟩⟩
  · exact ⟨.refl ref _, fun b hb => ⟨b, hb, rfl, rfl, rfl⟩⟩
  · exact ⟨quiet_createPage hcreate ref,
      fun b hb => ⟨b, blocks_createPage hcreate ▸ hb, rfl, rfl, rfl⟩⟩
  · have hb₁ : e₁.blocks[ref]? = some b := blocks_createPage hcreate ▸ hb
    have hset : Quiet ref e₁ (e₁.setBlock ref { b with page, dirty := false }) :=
      quiet_setBlock hb₁ rfl
    refine ⟨((quiet_createPage hcreate ref).trans hset).trans (quiet_notify _ _ _), fun c hc => ?_⟩
    obtain rfl := Option.some.inj (hb.symm.trans hc)
    exact ⟨_, List.getElem?_set_self (List.getElem?_eq_some_iff.1 hb₁).1, rfl, rfl, rfl⟩

/-- Taking entries out of memory moves one block at most. -/
theorem quiet_unload {page : Nat} {r : Except MapError Bool}
    (h : Act.run (unload ref page) e = (r, e')) : Quiet ref e e' := by
  rcases unload_cases h with ⟨rfl, -⟩ | ⟨b, es, hb, -, hpersist⟩
  · exact .refl ref _
  have hset : Quiet ref e (e.setBlock ref { b with tracked := false }) := quiet_setBlock hb rfl
  rcases hpersist with ⟨cause, hpersist, -⟩ | ⟨e₁, hpersist, -, rfl⟩
  · exact hset.trans (quiet_persist hpersist).1
  · obtain ⟨hquiet, hkept⟩ := quiet_persist hpersist
    obtain ⟨b₁, hb₁, -⟩ := hkept _ (List.getElem?_set_self (List.getElem?_eq_some_iff.1 hb).1)
    exact ((hset.trans hquiet).trans (quiet_forget hb₁)).trans (quiet_notify _ _ _)

/-- An eviction of any page moves one block at most. -/
theorem quiet_evict (page : Page BlockRef) (e : Engine K V) :
    Quiet page.owner e (e.evict page) := by
  unfold evict
  split
  · exact (quiet_unload rfl).trans (quiet_notify _ _ _)
  · exact .refl _ e

theorem unload_of_none {page : Nat} (hb : e.blocks[ref]? = some b) (hid : b.id = page)
    (hes : b.entries = none) : Act.run (unload ref page) e = (.ok false, e) := by
  simp [unload, Act.run_bind, hb, hid, hes]

theorem unload_of_some {page : Nat} {es : Entries K V} (hb : e.blocks[ref]? = some b)
    (hid : b.id = page) (hes : b.entries = some es) :
    Act.run (unload ref page) e =
      match Act.run (persist ref) (e.setBlock ref { b with tracked := false }) with
      | (.ok _, e) => (.ok true, ({ e with
          blocks := e.blocks.modify ref ({ · with entries := none }) } : Engine K V).notify
            (.blockUnloaded b.id))
      | (.error cause, e) => (.error cause, e) := by
  simp only [unload, Act.run_bind, Act.run_get, hb, hid, hes, ne_eq, not_true, if_false,
    Option.isNone_some, Bool.false_eq_true, Act.run_modify]
  rcases Act.run (persist ref) _ with ⟨cause | x, e₁⟩ <;> rfl

/-- What an eviction does to a block that was not given up: its entries leave memory, or they stay
since they could not be written, and in both cases the block does not count as tracked any more. -/
theorem evict_cases {page : Page BlockRef} (hb : e.blocks[page.owner]? = some b)
    (hreleased : b.released = false) (hid : b.id = page.key.pageId)
    (hstore : b.home.store < e.stores.length) :
    ∃ b', (e.evict page).blocks[page.owner]? = some b' ∧ b'.frame = b.frame ∧
      (b.entries = none ∧ b' = b ∨ b'.entries = none ∧ b'.tracked = false ∨
        ∃ es c, b.entries = some es ∧ b' = { b with tracked := false } ∧
          (e.evict page).events = .noticed (.evictionFailed page.key (.storage c)) ::
            .pageCreated b.home.store es (.error c) :: e.events) := by
  obtain ⟨hlt, -⟩ := List.getElem?_eq_some_iff.1 hb
  have hlive : e.isLive page.owner = true := by simp [isLive, hb, hreleased]
  simp only [evict, hlive, if_true]
  cases hes : b.entries with
  | none =>
    rw [unload_of_none hb hid hes]
    exact ⟨b, hb, rfl, Or.inl ⟨rfl, rfl⟩⟩
  | some es =>
    have hget : (e.setBlock page.owner { b with tracked := false }).blocks[page.owner]? =
        some { b with tracked := false } := List.getElem?_set_self hlt
    rw [unload_of_some hb hid hes]
    rcases hpersist : Act.run (persist page.owner)
      (e.setBlock page.owner { b with tracked := false }) with ⟨cause | x, e₁⟩
    · -- the entries could not be written
      rcases persist_cases hpersist with ⟨hok, -⟩ | ⟨b', es', hb', hes', -, hcreate⟩
      · simp at hok
      obtain rfl := Option.some.inj (hget.symm.trans hb')
      obtain rfl := Option.some.inj (hes.symm.trans hes')
      rcases hcreate with ⟨c, hcreate, hcause⟩ | ⟨-, -, -, hok, -⟩
      · obtain rfl := Except.error.inj hcause
        have hevents := createPage_error hcreate hstore
        refine ⟨_, (congrArg (·[page.owner]?) (blocks_createPage hcreate)).trans hget, rfl,
          Or.inr (Or.inr ⟨es, c, rfl, by rw [hes], ?_⟩)⟩
        simp only [notify, record, Notice.ofEviction, hevents]
        rfl
      · simp at hok
    · obtain ⟨b₁, hb₁, hsame, -, htracked⟩ := (quiet_persist hpersist).2 _ hget
      refine ⟨{ b₁ with entries := none }, ?_, hsame, Or.inr (Or.inl ⟨rfl, htracked⟩)⟩
      simp [notify, record, hb₁]

variable [LE K] [DecidableLE K]

/-- A block that was accessed is in memory and tracked. -/
theorem quiet_access {es : Entries K V} (hb : e.blocks[ref]? = some b)
    (h : Act.run (access ref b) e = (.ok es, e')) :
    Quiet ref e e' ∧ e'.blocks[ref]? = some (b.loaded es) := by
  obtain ⟨hlt, -⟩ := List.getElem?_eq_some_iff.1 hb
  rcases access_cases h with ⟨es', -, hr, rfl⟩ | ⟨-, ⟨c, -, hr⟩ | ⟨xs, e₁, hload, hr, rfl⟩⟩
  · obtain rfl := Except.ok.inj hr
    exact ⟨quiet_setBlock hb (Block.frame_loaded _ _), List.getElem?_set_self hlt⟩
  · simp at hr
  · obtain rfl := Except.ok.inj hr
    obtain ⟨hquiet, hblocks⟩ := quiet_loadPage hload ref
    have hb₁ : e₁.blocks[ref]? = some b := hblocks ▸ hb
    exact ⟨hquiet.trans (quiet_setBlock hb₁ (Block.frame_loaded _ _)),
      List.getElem?_set_self (hblocks.symm ▸ hlt)⟩

/-- A block that cannot be read stays as it is. -/
theorem quiet_access_error {cause : MapError} (h : Act.run (access ref b) e = (.error cause, e')) :
    Quiet ref e e' ∧ e'.blocks = e.blocks := by
  obtain ⟨-, c, -, hload⟩ := access_error h
  exact quiet_loadPage hload ref

/-- Reading a block moves it into memory at most. -/
theorem paging_access {r : Except MapError (Entries K V)} (hb : e.blocks[ref]? = some b)
    (h : Act.run (access ref b) e = (r, e')) : Paging e e' := by
  cases r with
  | error cause => exact (quiet_access_error h).1.toPaging
  | ok es => exact (quiet_access hb h).1.toPaging

/-! ### Calls of a policy -/

omit [LE K] [DecidableLE K] in
theorem paging_addPage (policy : Nat) (page : Page BlockRef) (e : Engine K V) :
    Paging e (e.addPage policy page) := by
  dsimp only [addPage]
  split
  · exact .of_blocks rfl rfl rfl
  · split
    · refine Paging.trans ?_ (quiet_evict _ _).toPaging
      exact .of_blocks rfl rfl rfl
    · exact .of_blocks rfl rfl rfl

omit [LE K] [DecidableLE K] in
theorem paging_touch (ref : BlockRef) (b : Block K V) (e : Engine K V) :
    Paging e (e.touch ref b) := by
  unfold touch
  split
  · exact paging_hitPage _ _ _
  · exact paging_addPage _ _ _

end Engine

end PagedMap
