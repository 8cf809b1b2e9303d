import Mathlib
import PagedMap.Proofs.Listing
import PagedMap.Proofs.Put

/-!
# The steps of a map

Whatever is asked of a map is done in steps of few kinds (`Engine.Step`): a block that the map lists
is read, changed or written, a new block is listed, and the policy is told of a block that was read.
Between a read and the call of the policy the block is pending, and so is a block that was split
off.  Every request ends with no block pending (`Engine.steps_put` and its likes).

So what is true of an engine at all times has to be shown for the steps only, and a whole request
follows by induction over its steps (`Engine.Steps`).  That the maps stay tidy is the first such
fact (`Engine.Step.retains`).
-/

namespace PagedMap

variable {K V : Type}

/-- What the policy has to be told of once the block was read. -/
def Block.due (b : Block K V) (ref : BlockRef) : Finset BlockRef := if b.tracked then ∅ else {ref}

/-! ### Directories -/

namespace Start

variable [LE K] [DecidableLE K]

theorem id_eq_of_le_of_le {s t : Start K} (h : s.le t = true) (h' : t.le s = true) :
    s.id = t.id := by
  cases s with
  | head =>
    cases t with
    | head => rfl
    | «at» l j => simp [le] at h'
  | «at» k i =>
    cases t with
    | head => simp [le] at h
    | «at» l j =>
      obtain ⟨hkl, hij⟩ := of_decide_eq_true h
      obtain ⟨hlk, hji⟩ := of_decide_eq_true h'
      exact Nat.le_antisymm (hij hlk) (hji hkl)

end Start

namespace Directory

variable [LE K] [DecidableLE K] {d : Directory K} {start : Start K} {ref : BlockRef}
  {x : Start K × BlockRef}

/-- A block with a new number takes no place away. -/
theorem perm_insert (ref : BlockRef) (h : ∀ x ∈ d, x.1.id ≠ start.id) :
    (d.insert start ref).Perm ((start, ref) :: d) := by
  induction d with
  | nil => exact .refl _
  | cons y d ih =>
    rw [List.forall_mem_cons] at h
    unfold insert
    split
    · rename_i hle
      split
      · rename_i hle'
        exact absurd (Start.id_eq_of_le_of_le hle hle') h.1
      · exact ((ih h.2).cons y).trans (.swap _ _ _)
    · exact .refl _

/-- What is listed after an insertion was listed before, or is the new block. -/
theorem mem_insert (h : x ∈ d.insert start ref) :
    x ∈ d ∨ x.2 = ref ∧ x.1.id = start.id ∧ (x.1 = start ∨ ∃ y ∈ d, y.1 = x.1) := by
  induction d with
  | nil =>
    obtain rfl := List.mem_singleton.1 h
    exact Or.inr ⟨rfl, rfl, Or.inl rfl⟩
  | cons y d ih =>
    unfold insert at h
    split at h
    · rename_i hle
      split at h
      · rename_i hle'
        rcases List.mem_cons.1 h with rfl | hmem
        · exact Or.inr ⟨rfl, Start.id_eq_of_le_of_le hle hle', Or.inr ⟨y, by simp, rfl⟩⟩
        · exact Or.inl (List.mem_cons_of_mem _ hmem)
      · rcases List.mem_cons.1 h with rfl | hmem
        · exact Or.inl List.mem_cons_self
        · rcases ih hmem with hx | ⟨href, hid, hstart | ⟨z, hz, heq⟩⟩
          · exact Or.inl (List.mem_cons_of_mem _ hx)
          · exact Or.inr ⟨href, hid, Or.inl hstart⟩
          · exact Or.inr ⟨href, hid, Or.inr ⟨z, List.mem_cons_of_mem _ hz, heq⟩⟩
    · rcases List.mem_cons.1 h with rfl | hmem
      · exact Or.inr ⟨rfl, rfl, Or.inl rfl⟩
      · exact Or.inl hmem

theorem floor?_mem_refs {key : K} (h : d.floor? key = some ref) : ref ∈ d.refs := by
  obtain ⟨x, hx, rfl⟩ := Option.map_eq_some_iff.1 h
  exact List.mem_map_of_mem (List.mem_of_mem_filter (List.mem_of_getLast? hx))

end Directory

namespace Engine

/-! ### Steps -/

/-- A block that a map may list next, with the highest number from then on. -/
structure Joins (state : MapState K) (b : Block K V) (lastId : Nat) : Prop where
  home : b.home = state.home
  entries : b.entries.isSome = true
  tracked : b.tracked = true
  released : b.released = false
  id : b.id = b.start.id
  head : b.id = 0 → b.start = .head
  fresh : ∀ x ∈ state.directory, x.1.id ≠ b.id
  lastId_eq : lastId = max state.lastId b.id
  next : ∀ next ∈ b.next, next ∈ state.directory.refs

/-- What a map may make of a block that it has read. -/
structure Edits (e : Engine K V) (m : Nat) (b b' : Block K V) : Prop where
  home : b'.home = b.home
  id : b'.id = b.id
  entries : b'.entries.isSome = true
  tracked : b'.tracked = b.tracked
  released : b'.released = b.released
  next : ∀ next ∈ b'.next, ∃ c, e.Lists m next c

section Enlist

variable [LE K] [DecidableLE K]

/-- Adds a block and lists it in a map. -/
def enlist (m : Nat) (state : MapState K) (b : Block K V) (lastId : Nat) (e : Engine K V) :
    Engine K V :=
  (e.addBlock b).setMap m { state with
    directory := Directory.insert b.start e.blocks.length state.directory, lastId }

variable {e : Engine K V} {m lastId : Nat} {state : MapState K} {b : Block K V}

theorem maps_enlist (hm : e.maps[m]? = some state) (b : Block K V) (lastId : Nat) :
    (e.enlist m state b lastId).maps[m]? = some { state with
      directory := Directory.insert b.start e.blocks.length state.directory, lastId } :=
  List.getElem?_set_self (List.getElem?_eq_some_iff.1 hm).1

theorem maps_enlist_of_ne {i : Nat} (hi : i ≠ m) :
    (e.enlist m state b lastId).maps[i]? = e.maps[i]? := List.getElem?_set_ne hi.symm

theorem blocks_enlist (r : BlockRef) : (e.enlist m state b lastId).blocks[r]? =
    if r = e.blocks.length then some b else e.blocks[r]? := getElem?_append_singleton _ _ _

theorem blocks_enlist_new : (e.enlist m state b lastId).blocks[e.blocks.length]? = some b :=
  (blocks_enlist _).trans (if_pos rfl)

theorem blocks_enlist_of_some {r : BlockRef} {x : Block K V} (hx : e.blocks[r]? = some x) :
    (e.enlist m state b lastId).blocks[r]? = some x :=
  (List.getElem?_append_left (List.getElem?_eq_some_iff.1 hx).1).trans hx

/-- What is listed after a block was added. -/
theorem lists_of_enlist {i : Nat} {r : BlockRef} {c : Block K V} (hm : e.maps[m]? = some state)
    (hc : (e.enlist m state b lastId).Lists i r c) :
    r = e.blocks.length ∧ c = b ∨ e.Lists i r c := by
  obtain ⟨state', hi, hr, hget⟩ := hc
  rw [blocks_enlist] at hget
  split at hget
  · rename_i hnew
    exact Or.inl ⟨hnew, (Option.some.inj hget).symm⟩
  · rename_i hold
    right
    by_cases hne : i = m
    · subst hne
      obtain rfl := Option.some.inj ((maps_enlist hm b lastId).symm.trans hi)
      obtain ⟨x, hx, rfl⟩ := List.mem_map.1 hr
      have hmem : x ∈ state.directory :=
        (Directory.mem_insert hx).resolve_right fun hnew => hold hnew.1
      exact ⟨state, hm, List.mem_map_of_mem hmem, hget⟩
    · exact ⟨state', (maps_enlist_of_ne hne).symm.trans hi, hr, hget⟩

end Enlist

variable [Wire K] [Wire V] [LE K] [DecidableLE K]

/-- One step on behalf of map `m`.  Of the pending blocks the policy is still to be told. -/
inductive Step (m : Nat) : Finset BlockRef × Engine K V → Finset BlockRef × Engine K V → Prop
  /-- A block is read, and becomes pending unless the policy knows it. -/
  | read {p : Finset BlockRef} {e e' : Engine K V} {ref : BlockRef} {b : Block K V}
      {es : Entries K V} (h : e.Lists m ref b) (hrun : Act.run (access ref b) e = (.ok es, e')) :
      Step m (p, e) (p ∪ b.due ref, e')
  /-- A block cannot be read. -/
  | unread {p : Finset BlockRef} {e e' : Engine K V} {ref : BlockRef} {b : Block K V}
      {cause : MapError} (h : e.Lists m ref b)
      (hrun : Act.run (access ref b) e = (.error cause, e')) : Step m (p, e) (p, e')
  /-- A block that was read is changed. -/
  | edit {p : Finset BlockRef} {e : Engine K V} {ref : BlockRef} {b b' : Block K V}
      (h : e.Lists m ref b) (htracked : b.tracked = true) (hb : e.Edits m b b') :
      Step m (p, e) (p, e.setBlock ref b')
  /-- A new block is listed and becomes pending. -/
  | list {p : Finset BlockRef} {e : Engine K V} {state : MapState K} {b : Block K V} {lastId : Nat}
      (hm : e.maps[m]? = some state) (hb : Joins state b lastId) :
      Step m (p, e) (insert e.blocks.length p, e.enlist m state b lastId)
  /-- The policy is told of the use of a block that it knows. -/
  | hit {p : Finset BlockRef} {e : Engine K V} {ref : BlockRef} {b : Block K V}
      (h : e.Lists m ref b) (htracked : b.tracked = true) :
      Step m (p, e) (p, e.hitPage b.home.policy (b.pageOf ref))
  /-- The policy is told of a pending block. -/
  | add {p : Finset BlockRef} {e : Engine K V} {ref : BlockRef} {b : Block K V}
      (h : e.Lists m ref b) (hp : ref ∈ p) :
      Step m (p, e) (p.erase ref, e.addPage b.home.policy (b.pageOf ref))
  /-- A block is written to a page. -/
  | persist {p : Finset BlockRef} {e e' : Engine K V} {ref : BlockRef} {b : Block K V}
      {r : Except MapError Unit} (h : e.Lists m ref b)
      (hrun : Act.run (persist ref) e = (r, e')) : Step m (p, e) (p, e')
  /-- A scan goes on. -/
  | look {p : Finset BlockRef} {e : Engine K V} (scans : List (Scan K V)) :
      Step m (p, e) (p, { e with scans })
  /-- An observer is told something. -/
  | note {p : Finset BlockRef} {e : Engine K V} (notice : Notice) :
      Step m (p, e) (p, e.notify notice)

/-- Some steps on behalf of map `m`. -/
abbrev Steps (m : Nat) : Finset BlockRef × Engine K V → Finset BlockRef × Engine K V → Prop :=
  Relation.ReflTransGen (Step m)

variable {e e' e'' : Engine K V} {m : Nat} {state : MapState K} {ref : BlockRef} {b b' : Block K V}
  {p : Finset BlockRef} {lastId : Nat} {x y : Finset BlockRef × Engine K V}

/-! ### The maps stay tidy -/

/-- What steps on behalf of map `m` keep. -/
structure Retains (m : Nat) (e e' : Engine K V) : Prop where
  tidy : e'.Tidy
  homes : e'.maps.map (·.home) = e.maps.map (·.home)
  stores : e'.stores.length = e.stores.length
  others : ∀ i ≠ m, e'.maps[i]? = e.maps[i]?
  lists : ∀ i (ref : BlockRef) (b : Block K V), e.Lists i ref b →
    ∃ b', e'.Lists i ref b' ∧ b'.home = b.home ∧ b'.id = b.id

omit [Wire K] [Wire V] [LE K] [DecidableLE K] in
theorem Retains.refl (ht : e.Tidy) (m : Nat) : Retains m e e :=
  ⟨ht, rfl, rfl, fun _ _ => rfl, fun _ _ b hl => ⟨b, hl, rfl, rfl⟩⟩

omit [Wire K] [Wire V] [LE K] [DecidableLE K] in
theorem Retains.trans (h : Retains m e e') (h' : Retains m e' e'') : Retains m e e'' where
  tidy := h'.tidy
  homes := h'.homes.trans h.homes
  stores := h'.stores.trans h.stores
  others i hi := (h'.others i hi).trans (h.others i hi)
  lists i ref b hl := by
    obtain ⟨b', hl', hhome, hid⟩ := h.lists i ref b hl
    obtain ⟨b'', hl'', hhome', hid'⟩ := h'.lists i ref b' hl'
    exact ⟨b'', hl'', hhome'.trans hhome, hid'.trans hid⟩

omit [Wire K] [Wire V] [LE K] [DecidableLE K] in
theorem Paging.retains (h : Paging e e') (ht : e.Tidy) (m : Nat) : Retains m e e' where
  tidy := h.tidy ht
  homes := by rw [h.maps]
  stores := h.stores
  others i _ := by rw [h.maps]
  lists i ref b hl := by
    obtain ⟨b', hl', hsame⟩ := h.lists hl
    exact ⟨b', hl', Block.home_eq_of_frame hsame, Block.id_eq_of_frame hsame⟩

omit [Wire K] [Wire V] [LE K] [DecidableLE K] in
theorem retains_setBlock (ht : e.Tidy) (hl : e.Lists m ref b) (hb : e.Edits m b b') :
    Retains m e (e.setBlock ref b') ∧ (e.setBlock ref b').Lists m ref b' := by
  obtain ⟨state, start, hm, hmem, hget, hhome, -, -, hid, hreleased, -⟩ := ht.of_lists hl
  obtain ⟨hlt, -⟩ := List.getElem?_eq_some_iff.1 hget
  have hset : (e.setBlock ref b').blocks[ref]? = some b' := List.getElem?_set_self hlt
  have hother (r : BlockRef) (hr : r ≠ ref) : (e.setBlock ref b').blocks[r]? = e.blocks[r]? :=
    List.getElem?_set_ne hr.symm
  refine ⟨⟨fun i st hi => ?_, rfl, rfl, fun _ _ => rfl, fun i r x hx => ?_⟩,
    state, hm, List.mem_map_of_mem hmem, hset⟩
  · have hlisting := ht i st hi
    refine ⟨hlisting.owner, hlisting.store, hlisting.heads, hlisting.ids, fun x hx => ?_⟩
    obtain ⟨c, hc, hchome, hcid, hcreleased, hcnext⟩ := hlisting.blocks x hx
    by_cases hr : x.2 = ref
    · obtain ⟨rfl, rfl⟩ := ht.eq_of_lists hl ⟨st, hi, hr ▸ List.mem_map_of_mem hx, hr ▸ hc⟩
      obtain rfl : state = st := Option.some.inj (hm.symm.trans hi)
      refine ⟨b', hr ▸ hset, hb.home.trans hchome, hb.id.trans hcid, hb.released.trans hcreleased,
        fun next hnext => ?_⟩
      obtain ⟨_, state', hm', href, -⟩ := hb.next next hnext
      obtain rfl : state = state' := Option.some.inj (hm.symm.trans hm')
      exact href
    · exact ⟨c, (hother _ hr).trans hc, hchome, hcid, hcreleased, hcnext⟩
  · obtain ⟨st, hi, hr, hget'⟩ := hx
    by_cases hne : r = ref
    · subst hne
      obtain rfl : b = x := Option.some.inj (hget.symm.trans hget')
      exact ⟨b', ⟨st, hi, hr, hset⟩, hb.home, hb.id⟩
    · exact ⟨x, ⟨st, hi, hr, (hother r hne).trans hget'⟩, rfl, rfl⟩

omit [Wire K] [Wire V] in
theorem mem_directory_enlist (hb : Joins state b lastId) {x : Start K × BlockRef} (r : BlockRef) :
    x ∈ Directory.insert b.start r state.directory ↔ x = (b.start, r) ∨ x ∈ state.directory := by
  rw [(Directory.perm_insert _ fun y hy => hb.id ▸ hb.fresh y hy).mem_iff, List.mem_cons]

omit [Wire K] [Wire V] in
theorem retains_enlist (ht : e.Tidy) (hm : e.maps[m]? = some state) (hb : Joins state b lastId) :
    Retains m e (e.enlist m state b lastId) ∧
      (e.enlist m state b lastId).Lists m e.blocks.length b := by
  have hnew : (e.enlist m state b lastId).blocks[e.blocks.length]? = some b := blocks_enlist_new
  have hmap := maps_enlist hm b lastId
  have hdirectory {x : Start K × BlockRef} := mem_directory_enlist (x := x) hb e.blocks.length
  have hrefs {r : BlockRef} (hr : r ∈ state.directory.refs) :
      r ∈ (Directory.insert b.start e.blocks.length state.directory).refs := by
    obtain ⟨x, hx, rfl⟩ := List.mem_map.1 hr
    exact List.mem_map_of_mem (hdirectory.2 (Or.inr hx))
  have hlisting := ht m state hm
  refine ⟨⟨ht.of_map (fun i => maps_enlist_of_ne) rfl
      (fun i _ r x hx => blocks_enlist_of_some hx.blocks_eq) fun st hi => ?_, ?_, rfl,
    fun i => maps_enlist_of_ne, fun i r x hx => ?_⟩,
    _, hmap, List.mem_map.2 ⟨_, hdirectory.2 (Or.inl rfl), rfl⟩, hnew⟩
  · obtain rfl := Option.some.inj (hmap.symm.trans hi)
    refine ⟨hlisting.owner, hlisting.store, fun x hx => ?_, fun x hx => ?_, fun x hx => ?_⟩ <;>
      rcases hdirectory.1 hx with rfl | hx
    · exact fun hid => hb.head (hb.id.trans hid)
    · exact hlisting.heads x hx
    · exact hb.id ▸ hb.lastId_eq ▸ Nat.le_max_right _ _
    · exact (hlisting.ids x hx).trans (hb.lastId_eq ▸ Nat.le_max_left _ _)
    · exact ⟨b, hnew, hb.home, hb.id, hb.released, fun next hn => hrefs (hb.next next hn)⟩
    · obtain ⟨c, hc, hhome, hid, hreleased, hnext⟩ := hlisting.blocks x hx
      exact ⟨c, blocks_enlist_of_some hc, hhome, hid, hreleased,
        fun next hn => hrefs (hnext next hn)⟩
  · exact homes_eq_of_map (fun i => maps_enlist_of_ne) hm hmap rfl
  · obtain ⟨st, hi, hr, hx⟩ := hx
    by_cases hne : i = m
    · subst hne
      obtain rfl : state = st := Option.some.inj (hm.symm.trans hi)
      exact ⟨x, ⟨_, hmap, hrefs hr, blocks_enlist_of_some hx⟩, rfl, rfl⟩
    · exact ⟨x, ⟨st, (maps_enlist_of_ne hne).trans hi, hr, blocks_enlist_of_some hx⟩, rfl, rfl⟩

omit [Wire K] [Wire V] in
/-- After a new block was listed, it is listed besides those that were. -/
theorem lists_enlist (ht : e.Tidy) (hm : e.maps[m]? = some state)
    (hb : Joins state b lastId) {i : Nat} {r : BlockRef} {c : Block K V} :
    (e.enlist m state b lastId).Lists i r c ↔
      e.Lists i r c ∨ i = m ∧ r = e.blocks.length ∧ c = b := by
  have hmap := maps_enlist hm b lastId
  have hnew : (e.enlist m state b lastId).blocks[e.blocks.length]? = some b := blocks_enlist_new
  have hold {i : Nat} {r : BlockRef} {c : Block K V} (hc : e.Lists i r c) :
      (e.enlist m state b lastId).blocks[r]? = some c := blocks_enlist_of_some hc.blocks_eq
  constructor
  · rintro ⟨st, hi, hr, hc⟩
    have hlisted {st' : MapState K} (hi' : e.maps[i]? = some st') (hr' : r ∈ st'.directory.refs) :
        e.Lists i r c := by
      obtain ⟨d, hd⟩ := ht.exists_lists hi' hr'
      exact Option.some.inj ((hold hd).symm.trans hc) ▸ hd
    by_cases hne : i = m
    · subst hne
      obtain rfl := Option.some.inj (hmap.symm.trans hi)
      obtain ⟨x, hx, rfl⟩ := List.mem_map.1 hr
      rcases (mem_directory_enlist hb e.blocks.length).1 hx with rfl | hx
      · exact Or.inr ⟨rfl, rfl, Option.some.inj (hc.symm.trans hnew)⟩
      · exact Or.inl (hlisted hm (List.mem_map_of_mem hx))
    · exact Or.inl (hlisted ((maps_enlist_of_ne hne).symm.trans hi) hr)
  · rintro (hc | ⟨rfl, rfl, rfl⟩)
    · obtain ⟨st, hi, hr, -⟩ := id hc
      by_cases hne : i = m
      · subst hne
        obtain rfl : state = st := Option.some.inj (hm.symm.trans hi)
        obtain ⟨x, hx, rfl⟩ := List.mem_map.1 hr
        exact ⟨_, hmap, List.mem_map_of_mem ((mem_directory_enlist hb _).2 (Or.inr hx)), hold hc⟩
      · exact ⟨st, (maps_enlist_of_ne hne).trans hi, hr, hold hc⟩
    · exact (retains_enlist ht hm hb).2

/-- Every step keeps the maps tidy. -/
theorem Step.retains (h : Step m x y) (ht : x.2.Tidy) : Retains m x.2 y.2 := by
  cases h with
  | read hl hrun => exact (paging_access hl.blocks_eq hrun).retains ht m
  | unread hl hrun => exact (paging_access hl.blocks_eq hrun).retains ht m
  | edit hl _ hb => exact (retains_setBlock ht hl hb).1
  | list hm hb => exact (retains_enlist ht hm hb).1
  | hit _ _ => exact (paging_hitPage _ _ _).retains ht m
  | add _ _ => exact (paging_addPage _ _ _).retains ht m
  | persist _ hrun => exact (quiet_persist hrun).1.toPaging.retains ht m
  | look scans =>
    refine Paging.retains ?_ ht m
    exact .of_blocks rfl rfl rfl
  | note notice =>
    refine Paging.retains ?_ ht m
    exact .of_blocks rfl rfl rfl

theorem Steps.retains (h : Steps m x y) (ht : x.2.Tidy) : Retains m x.2 y.2 := by
  induction h with
  | refl => exact .refl ht m
  | tail _ hstep ih => exact ih.trans (hstep.retains ih.tidy)

/-! ### What a request consists of -/

theorem Steps.lists (h : Steps m x y) (ht : x.2.Tidy) (hl : ∃ b, x.2.Lists m ref b) :
    ∃ b, y.2.Lists m ref b := by
  obtain ⟨b, hl⟩ := hl
  obtain ⟨b', hl', -⟩ := (h.retains ht).lists m ref b hl
  exact ⟨b', hl'⟩

theorem lists_loaded {es : Entries K V} (hl : e.Lists m ref b)
    (hrun : Act.run (access ref b) e = (.ok es, e')) : e'.Lists m ref (b.loaded es) := by
  obtain ⟨state, hm, href, hget⟩ := hl
  obtain ⟨hquiet, hloaded⟩ := quiet_access hget hrun
  exact ⟨state, hquiet.maps.symm ▸ hm, href, hloaded⟩

/-- The policy is told of a block that was read. -/
theorem steps_touch (hl : e.Lists m ref b') (hhome : b'.home = b.home) (hid : b'.id = b.id)
    (htracked : b'.tracked = true) (hp : b.due ref ⊆ p) :
    Steps m (p, e) (p \ b.due ref, e.touch ref b) := by
  have hpage : b.pageOf ref = b'.pageOf ref := by rw [Block.pageOf, Block.pageOf, hhome, hid]
  unfold touch Block.due at *
  rw [hpage, ← hhome]
  split
  · rw [Finset.sdiff_empty]
    exact .single (.hit hl htracked)
  · rename_i hb
    rw [if_neg hb, Finset.singleton_subset_iff] at hp
    rw [Finset.sdiff_singleton_eq_erase]
    exact .single (.add hl hp)

theorem steps_use {es : Entries K V} (ht : e.Tidy) (hl : e.Lists m ref b)
    (hrun : Act.run (access ref b) e = (.ok es, e')) (hb : e'.Edits m (b.loaded es) b') :
    Steps m (∅, e) (∅, (e'.setBlock ref b').touch ref b) := by
  have hread : Step m (∅, e) (∅ ∪ b.due ref, e') := .read hl hrun
  have hl' := lists_loaded hl hrun
  have hedit : Step m (∅ ∪ b.due ref, e') (∅ ∪ b.due ref, e'.setBlock ref b') := .edit hl' rfl hb
  have hdue : b.due ref ⊆ ∅ ∪ b.due ref := Finset.subset_union_right
  have htouch :=
    steps_touch (b := b) (retains_setBlock (hread.retains ht).tidy hl' hb).2 hb.home hb.id
    hb.tracked hdue
  have hall := ((Relation.ReflTransGen.single hread).tail hedit).trans htouch
  have hnone : (∅ ∪ b.due ref) \ b.due ref = ∅ := by simp
  rwa [hnone] at hall

/-- A block that was read stays as it is. -/
theorem edits_loaded (ht : e.Tidy) (hl : e.Lists m ref b) {es : Entries K V}
    (hrun : Act.run (access ref b) e = (.ok es, e')) : e'.Edits m (b.loaded es) (b.loaded es) := by
  refine ⟨rfl, rfl, rfl, rfl, rfl, fun next hnext => ?_⟩
  have hread : Step m (∅, e) (_, e') := .read hl hrun
  exact Steps.lists (.single hread) ht (ht.exists_next hl hnext)

theorem steps_valuesIn {first last : Option K} {r : Except MapError (List V × Option BlockRef)}
    (ht : e.Tidy) (hl : ∃ b, e.Lists m ref b) (h : Act.run (valuesIn ref first last) e = (r, e')) :
    Steps m (∅, e) (∅, e') ∧
      ∀ values next, r = .ok (values, next) → ∀ n ∈ next, ∃ c, e'.Lists m n c := by
  obtain ⟨b, hl⟩ := hl
  have hb := hl.blocks_eq
  have hnext (hsteps : Steps m (∅, e) (∅, e')) (n : BlockRef) (hn : n ∈ b.next) :
      ∃ c, e'.Lists m n c := hsteps.lists ht (ht.exists_next hl hn)
  rcases valuesIn_at hb h with ⟨-, rfl, rfl⟩ |
    ⟨-, ⟨cause, haccess, rfl⟩ | ⟨es, e₁, haccess, rfl, rfl⟩⟩
  · refine ⟨.refl, fun values next hr n hn => hnext .refl n ?_⟩
    exact (Prod.mk.inj (Except.ok.inj hr)).2 ▸ hn
  · exact ⟨.single (.unread hl haccess), fun values next hr => by simp at hr⟩
  · have hsame : e₁.setBlock ref (b.loaded es) = e₁ := setBlock_self (quiet_access hb haccess).2
    have hsteps := steps_use ht hl haccess (edits_loaded ht hl haccess)
    rw [hsame] at hsteps
    refine ⟨hsteps, fun values next hr n hn => hnext hsteps n ?_⟩
    exact (Prod.mk.inj (Except.ok.inj hr)).2 ▸ hn

/-! ### Reading -/

/-- A scan that comes to listed blocks only. -/
def Roams (e : Engine K V) (m : Nat) (s : Scan K V) : Prop :=
  ∀ ref ∈ s.queue, ∃ b, e.Lists m ref b

omit [Wire K] [Wire V] [LE K] [DecidableLE K] in
theorem Roams.ended (e : Engine K V) (m : Nat) (s : Scan K V) : e.Roams m s.ended := by
  simp [Roams, Scan.ended]

theorem Roams.mono {s : Scan K V} (h : e.Roams m s) (ht : e.Tidy)
    (hsteps : Steps m (p, e) (p, e')) : e'.Roams m s :=
  fun ref hr => hsteps.lists ht (h ref hr)

omit [Wire K] [Wire V] [LE K] [DecidableLE K] in
/-- The next block of a scan is listed if all its blocks are. -/
theorem Roams.visit? {s s' : Scan K V} (h : e.Roams m s) (hv : s.visit? e = some (ref, s')) :
    (∃ b, e.Lists m ref b) ∧ e.Roams m s' := by
  obtain ⟨queue, b, -, hmem, rfl⟩ := Scan.visit?_eq_some hv
  exact ⟨h _ (hmem List.mem_cons_self), fun n hn => h n (hmem (List.mem_cons_of_mem _ hn))⟩

omit [Wire K] [Wire V] [LE K] [DecidableLE K] in
theorem Roams.filled {s : Scan K V} (h : e.Roams m s) {next : Option BlockRef}
    (hnext : ∀ n ∈ next, ∃ b, e.Lists m n b) (values : List V) :
    e.Roams m (s.filled e values next) := by
  intro n hn
  rcases List.mem_append.1 hn with hn | hn
  · exact hnext n (by simpa using (List.mem_filter.1 hn).1)
  · exact h n hn

omit [Wire K] [Wire V] in
/-- A scan over the keys of a map comes to the blocks that the map lists. -/
theorem Roams.scan {first last : Option K} {s : Scan K V} (ht : e.Tidy)
    (h : scan m first last e = .ok s) : e.Roams m s := by
  unfold Engine.scan at h
  split at h
  · simp at h
  · obtain rfl := Except.ok.inj h
    intro ref hr
    obtain ⟨hmem, -⟩ := List.mem_filter.1 hr
    split at hmem
    · rename_i state hm
      exact ht.exists_lists hm hmem
    · simp at hmem

theorem steps_nextWithin {keep : Scan K V → Engine K V → Engine K V} {fuel : Nat} {s s' : Scan K V}
    {value : Option (Except MapError V)} (ht : e.Tidy) (hs : e.Roams m s)
    (hkeep : ∀ (s : Scan K V) (e : Engine K V), Steps m (∅, e) (∅, keep s e))
    (h : nextWithin keep fuel s e = (value, s', e')) :
    Steps m (∅, e) (∅, e') ∧ e'.Roams m s' := by
  induction fuel using Nat.strong_induction_on generalizing s e with
  | _ fuel ih =>
    rcases nextWithin_cases h with ⟨v, buffer, -, -, rfl, rfl⟩ | ⟨-, -, -, rfl, rfl⟩ |
      ⟨left, ref, s₁, r, e₁, -, rfl, hvisit, hvalues, hread⟩
    · exact ⟨.refl, hs⟩
    · exact ⟨.refl, .ended _ m s⟩
    obtain ⟨hl, hs₁⟩ := hs.visit? hvisit
    have hk := hkeep (s₁.reading ref) e
    have htk := (Steps.retains hk ht).tidy
    obtain ⟨hsteps, hnext⟩ := steps_valuesIn htk (hk.lists ht hl) hvalues
    have hall := Relation.ReflTransGen.trans hk hsteps
    rcases hread with ⟨cause, -, -, rfl, rfl⟩ | ⟨values, next, rfl, hrest⟩
    · exact ⟨hall, .ended _ m s₁⟩
    · obtain ⟨hrest, hs'⟩ := ih left left.lt_succ_self (Steps.retains hall ht).tidy
        ((hs₁.mono ht hall).filled (hnext values next rfl) values) hrest
      exact ⟨hall.trans hrest, hs'⟩

theorem steps_get? {key : K} {r : Except MapError (Option V)} (ht : e.Tidy)
    (h : Act.run (get? m key) e = (r, e')) : Steps m (∅, e) (∅, e') := by
  rcases get?_cases h with ⟨cause, -, -, rfl⟩ | ⟨s, value, s', hscan, hnext, -⟩
  · exact .refl
  · exact (steps_nextWithin ht (.scan ht hscan) (fun _ _ => .refl) hnext).1

theorem steps_contains {key : K} {r : Except MapError Bool} (ht : e.Tidy)
    (h : Act.run (contains m key) e = (r, e')) : Steps m (∅, e) (∅, e') := by
  rcases Act.bind_cases h with ⟨cause, hget, -⟩ | ⟨value, e₁, hget, hpure⟩
  · exact steps_get? ht hget
  · obtain ⟨-, rfl⟩ := Prod.mk.inj hpure
    exact steps_get? ht hget

theorem steps_valuesWithin {fuel : Nat} {s : Scan K V} {r : Except MapError (List V)} (ht : e.Tidy)
    (hs : e.Roams m s) (h : Act.run (valuesWithin fuel s) e = (r, e')) :
    Steps m (∅, e) (∅, e') := by
  induction fuel using Nat.strong_induction_on generalizing s e r with
  | _ fuel ih =>
    rcases valuesWithin_cases h with ⟨-, -, rfl⟩ | ⟨left, ref, s₁, rfl, hvisit, hread⟩
    · exact .refl
    obtain ⟨hl, hs₁⟩ := hs.visit? hvisit
    rcases hread with ⟨cause, hvalues, -⟩ | ⟨values, next, e₁, rest, hvalues, hrest, -⟩
    · exact (steps_valuesIn ht hl hvalues).1
    · obtain ⟨hsteps, hnext⟩ := steps_valuesIn ht hl hvalues
      have hs₂ := (hs₁.mono ht hsteps).filled (hnext values next rfl) values
      exact hsteps.trans (ih left left.lt_succ_self (Steps.retains hsteps ht).tidy hs₂ hrest)

theorem steps_valuesBetween {first last : Option K} {r : Except MapError (List V)} (ht : e.Tidy)
    (h : Act.run (valuesBetween m first last) e = (r, e')) : Steps m (∅, e) (∅, e') := by
  rcases valuesBetween_cases h with ⟨cause, -, -, rfl⟩ | ⟨s, hscan, hrun⟩
  · exact .refl
  · exact steps_valuesWithin ht (.scan ht hscan) hrun

/-- An open scan that comes to listed blocks only goes on to its next value. -/
theorem steps_next {n : Nat} {s : Scan K V} (ht : e.Tidy) (hn : e.scans[n]? = some s)
    (hs : e.Roams m s) : Steps m (∅, e) (∅, (e.next n).2) ∧
      ∀ s', (e.next n).2.scans[n]? = some s' → (e.next n).2.Roams m s' := by
  obtain ⟨hlt, -⟩ := List.getElem?_eq_some_iff.1 hn
  rcases hrun : nextWithin (setScan n) e.blocks.length s e with ⟨value, s', e₁⟩
  have hkeep (s : Scan K V) (e : Engine K V) : Steps m (∅, e) (∅, e.setScan n s) :=
    .single (.look _)
  obtain ⟨hsteps, hs'⟩ := steps_nextWithin ht hs hkeep hrun
  have hlast : Steps m (∅, e₁) (∅, e₁.setScan n s') := hkeep s' e₁
  have hnext : e.next n = (value, e₁.setScan n s') := by simp [Engine.next, hn, hrun]
  rw [hnext]
  refine ⟨hsteps.trans hlast, fun s'' hs'' => ?_⟩
  have hget := List.getElem?_set_self' (l := e₁.scans) (i := n) (a := s')
  obtain ⟨x, -, rfl⟩ := Option.map_eq_some_iff.1 (hget.symm.trans hs'')
  exact hs'.mono (Steps.retains hsteps ht).tidy hlast

/-! ### Putting and removing -/

section Edit

variable [Sized K] [Sized V]

omit [Wire K] [Wire V] in
/-- A split lists the upper part and puts the lower part in the place of the block. -/
theorem split_eq {lower upper : Block K V} (hm : e.maps[m]? = some state)
    (hlt : ref < e.blocks.length)
    (h : b.split? (state.lastId + 1) e.blocks.length = some (lower, upper)) :
    split m ref b e = (some (e.blocks.length, upper),
      ((e.enlist m state upper (state.lastId + 1)).setBlock ref lower).notify
        (.blockSplit b.id upper.id lower.size upper.size)) := by
  simp [split, hm, h, enlist, setMap, addBlock, setBlock, List.set_append_left _ _ hlt]

/-- A block that was read is split, and the new block becomes pending, or it stays as it is. -/
theorem steps_split (ht : e.Tidy) (hl : e.Lists m ref b) (htracked : b.tracked = true)
    (p : Finset BlockRef) :
    split m ref b e = (none, e) ∨
      ∃ upperRef upper e', split m ref b e = (some (upperRef, upper), e') ∧ upperRef ≠ ref ∧
        e'.Lists m upperRef upper ∧
        (∃ b', e'.Lists m ref b' ∧ b'.home = b.home ∧ b'.id = b.id ∧ b'.tracked = true) ∧
        Steps m (p, e) (insert upperRef p, e') := by
  obtain ⟨state, start, hm, hmem, hget, hhome, -, -, -, hreleased, hnext⟩ := ht.of_lists hl
  obtain ⟨hlt, -⟩ := List.getElem?_eq_some_iff.1 hget
  cases hsplit : b.split? (state.lastId + 1) e.blocks.length with
  | none => exact Or.inl (by simp [split, hm, hsplit])
  | some parts =>
    obtain ⟨lower, upper⟩ := parts
    obtain ⟨front, back, total, -, a, c, d, f, -, -, -, -, hlower, hupper⟩ :=
      Block.split?_eq_some hsplit
    -- the upper part is listed first, since the lower part leads to it
    have hjoins : Joins state upper (state.lastId + 1) := by
      subst hupper
      refine ⟨hhome, rfl, rfl, hreleased, rfl, fun hzero => by simp at hzero, fun x hx heq => ?_,
        (Nat.max_eq_right (Nat.le_succ _)).symm, hnext⟩
      have hle := (ht m state hm).ids x hx
      simp only at heq
      omega
    obtain ⟨hret, hnew⟩ := retains_enlist ht hm hjoins
    have hkept : (e.enlist m state upper (state.lastId + 1)).Lists m ref b := by
      obtain ⟨b', ⟨state', hm', href', -⟩, -⟩ := hret.lists m ref b hl
      exact ⟨state', hm', href', (List.getElem?_append_left hlt).trans hget⟩
    have hedits : (e.enlist m state upper (state.lastId + 1)).Edits m b lower := by
      subst hlower
      refine ⟨rfl, rfl, rfl, rfl, rfl, fun next hn => ?_⟩
      obtain rfl := Option.some.inj hn
      exact ⟨upper, hnew⟩
    obtain ⟨-, hlower'⟩ := retains_setBlock hret.tidy hkept hedits
    have hupper' : ((e.enlist m state upper (state.lastId + 1)).setBlock ref lower).Lists m
        e.blocks.length upper := by
      obtain ⟨state', hm', href', hget'⟩ := hnew
      exact ⟨state', hm', href', (List.getElem?_set_ne (Nat.ne_of_lt hlt)).trans hget'⟩
    refine Or.inr ⟨_, upper, _, split_eq hm hlt hsplit, Nat.ne_of_gt hlt, hupper',
      ⟨lower, hlower', hedits.home, hedits.id, hedits.tracked.trans htracked⟩, ?_⟩
    exact ((Relation.ReflTransGen.single (.list hm hjoins)).tail (.edit hkept htracked hedits)).tail
      (.note _)

omit [Wire K] [Wire V] in
theorem Edits.insert (hb : e.Edits m b b) (es : Entries K V) (key : K) (value : V) :
    e.Edits m b (b.insert es key value) :=
  ⟨rfl, rfl, rfl, rfl, rfl, hb.next⟩

omit [Wire K] [Wire V] in
theorem Edits.erase (hb : e.Edits m b b) (es : Entries K V) (key : K) :
    e.Edits m b (b.erase es key) := by
  unfold Block.erase
  split
  · exact ⟨rfl, rfl, rfl, rfl, rfl, hb.next⟩
  · exact hb

theorem steps_putInto {key : K} {value : V} {r : Except MapError (Attempt V)} (ht : e.Tidy)
    (hl : e.Lists m ref b) (h : Act.run (putInto m ref key value) e = (r, e')) :
    Steps m (∅, e) (∅, e') := by
  have hb := hl.blocks_eq
  cases hpast : e.isPast b key with
  | true =>
    simp only [putInto, Act.run_bind, Act.run_get, hb, hpast, if_true] at h
    obtain ⟨-, rfl⟩ := Prod.mk.inj h
    exact .refl
  | false =>
    rw [run_putInto hb hpast] at h
    rcases haccess : Act.run (access ref b) e with ⟨cause | es, e₁⟩ <;> rw [haccess] at h <;>
      obtain ⟨-, rfl⟩ := Prod.mk.inj h
    · exact .single (.unread hl haccess)
    have hedits := (edits_loaded ht hl haccess).insert es key value
    have hstay := steps_use ht hl haccess hedits
    unfold settle
    split
    · -- over the budget
      have hread : Step m (∅, e) (∅ ∪ b.due ref, e₁) := .read hl haccess
      have hl₁ := lists_loaded hl haccess
      obtain ⟨hret, hgrown⟩ := retains_setBlock (hread.retains ht).tidy hl₁ hedits
      have hgrow :
          Steps m (∅, e) (∅ ∪ b.due ref, e₁.setBlock ref ((b.loaded es).insert es key value)) :=
        (Relation.ReflTransGen.single hread).tail (.edit hl₁ rfl hedits)
      rcases steps_split hret.tidy hgrown rfl (∅ ∪ b.due ref) with
        hnone | ⟨upperRef, upper, e₂, hsome, hne, hupper, ⟨b', hl', hhome, hid, htracked⟩, hsteps⟩
      · rw [hnone]
        exact hstay
      rw [hsome]
      have hall := hgrow.trans hsteps
      have htouch : Steps m (insert upperRef (∅ ∪ b.due ref), e₂) (_, e₂.touch ref b) :=
        steps_touch hl' hhome hid htracked fun r hr => by simp [hr]
      obtain ⟨upper', hupper', huhome, huid⟩ :=
        (Steps.retains htouch (Steps.retains hall ht).tidy).lists m upperRef upper hupper
      have hpage : upper.pageOf upperRef = upper'.pageOf upperRef := by
        rw [Block.pageOf, Block.pageOf, huhome, huid]
      have hdue : upperRef ∉ b.due ref := by
        unfold Block.due
        split <;> simp [hne]
      -- the upper part stays pending until the policy was told of it, after the block itself
      have hadd : Step m (insert upperRef (∅ ∪ b.due ref) \ b.due ref, e₂.touch ref b)
          ((insert upperRef (∅ ∪ b.due ref) \ b.due ref).erase upperRef,
            (e₂.touch ref b).addPage upper.home.policy (upper.pageOf upperRef)) := by
        rw [hpage, ← huhome]
        exact .add hupper' (by simp [hdue])
      have hnone : (insert upperRef (∅ ∪ b.due ref) \ b.due ref).erase upperRef = ∅ := by
        rw [Finset.insert_sdiff_of_notMem _ hdue]
        simp
      have hsteps := (hall.trans htouch).tail hadd
      rwa [hnone] at hsteps
    · exact hstay

/-- A put does what its attempt does. -/
theorem snd_run_put (m : Nat) (key : K) (value : V) (e : Engine K V) :
    (Act.run (put m key value) e).2 = (Act.run (putOnce m key value) e).2 := by
  simp only [put, Act.run_bind]
  rcases Act.run (putOnce m key value) e with ⟨cause | _ | _, e₁⟩ <;> rfl

theorem steps_put {key : K} {value : V} {r : Except MapError (Option V)} (ht : e.Tidy)
    (h : Act.run (put m key value) e = (r, e')) : Steps m (∅, e) (∅, e') := by
  obtain rfl : (Act.run (putOnce m key value) e).2 = e' := by rw [← snd_run_put, h]
  rcases putOnce_cases m key value e with ⟨r, hrun, -⟩ | ⟨state, hm, hfloor, hrun⟩ |
    ⟨state, ref, hm, hfloor, hrun⟩
  · exact hrun ▸ .refl
  · rw [hrun]
    have hjoins : Joins state (.ofEntry state.home key value (state.home.weight (key, value)))
        state.lastId := by
      refine ⟨rfl, rfl, rfl, rfl, rfl, fun _ => rfl, fun x hx hid => ?_, (Nat.max_zero _).symm,
        fun next hn => by simp [Block.ofEntry] at hn⟩
      have hhead := (ht m state hm).heads x hx hid
      have hreaches := Directory.floor?_eq_none hfloor x hx
      simp [hhead, Start.reaches, Start.key?] at hreaches
    have hlist : Step m (∅, e) (insert e.blocks.length ∅, _) := .list hm hjoins
    have hadd : Step m (insert e.blocks.length ∅, _)
        ((insert e.blocks.length ∅ : Finset BlockRef).erase
        e.blocks.length, plant m state key value e) :=
      .add (retains_enlist ht hm hjoins).2 (Finset.mem_insert_self _ _)
    have hsteps := (Relation.ReflTransGen.single hlist).tail hadd
    rwa [Finset.erase_insert (Finset.notMem_empty _)] at hsteps
  · rw [hrun]
    obtain ⟨b, hl⟩ := ht.exists_lists hm (Directory.floor?_mem_refs hfloor)
    exact steps_putInto ht hl rfl

theorem steps_removeFrom {key : K} {r : Except MapError (Option V)} (ht : e.Tidy)
    (hl : ∃ b, e.Lists m ref b) (h : Act.run (removeFrom key ref) e = (r, e')) :
    Steps m (∅, e) (∅, e') := by
  obtain ⟨b, hl⟩ := hl
  rcases removeFrom_at hl.blocks_eq h with ⟨-, -, rfl⟩ |
    ⟨-, ⟨cause, haccess, -⟩ | ⟨es, e₁, haccess, -, rfl⟩⟩
  · exact .refl
  · exact .single (.unread hl haccess)
  · exact steps_use ht hl haccess ((edits_loaded ht hl haccess).erase es key)

omit [Sized K] [Sized V] in
/-- What is done to each block of a list, one after the other. -/
theorem steps_foldlM {α β : Type} {f : β → α → Act K V β} {P : Engine K V → α → Prop}
    (hf : ∀ (e e' : Engine K V) (y : β) (z : α) (r : Except MapError β), e.Tidy → P e z →
      Act.run (f y z) e = (r, e') → Steps m (∅, e) (∅, e'))
    (hmono : ∀ (e e' : Engine K V) (z : α), e.Tidy → Steps m (∅, e) (∅, e') → P e z → P e' z)
    {zs : List α} {y : β} {r : Except MapError β} (ht : e.Tidy) (hzs : ∀ z ∈ zs, P e z)
    (h : Act.run (zs.foldlM f y) e = (r, e')) : Steps m (∅, e) (∅, e') := by
  induction zs generalizing e y with
  | nil =>
    obtain ⟨-, rfl⟩ := Prod.mk.inj h
    exact .refl
  | cons z zs ih =>
    rw [List.forall_mem_cons] at hzs
    rw [List.foldlM_cons] at h
    rcases Act.bind_cases h with ⟨cause, hz, -⟩ | ⟨y', e₁, hz, hrest⟩
    · exact hf e _ y z _ ht hzs.1 hz
    · have hfirst := hf e e₁ y z _ ht hzs.1 hz
      exact hfirst.trans (ih (Steps.retains hfirst ht).tidy
        (fun z' hz' => hmono e e₁ z' ht hfirst (hzs.2 z' hz')) hrest)

omit [Wire K] [Wire V] [LE K] [DecidableLE K] [Sized K] [Sized V] in
/-- A chain that starts at a listed block comes to listed blocks only. -/
theorem lists_of_mem_chain {fuel : Nat} {visited : List Nat} {next : Option BlockRef} (ht : e.Tidy)
    (hnext : ∀ n ∈ next, ∃ b, e.Lists m n b) :
    ∀ r ∈ (e.chain fuel visited next).1, ∃ b, e.Lists m r b := by
  induction fuel generalizing visited next with
  | zero => simp [chain]
  | succ fuel ih =>
    cases next with
    | none => simp [chain]
    | some n =>
      obtain ⟨b, hl⟩ := hnext n rfl
      have hb := hl.blocks_eq
      simp only [chain, hb]
      split
      · simp
      · rw [List.forall_mem_cons]
        exact ⟨⟨b, hl⟩, ih fun n' hn' => ht.exists_next hl hn'⟩

omit [Wire K] [Wire V] [Sized K] [Sized V] in
/-- A removal reaches listed blocks only. -/
theorem lists_of_mem_removalGroups {key : K} {visited : List Nat} {refs : List BlockRef}
    (ht : e.Tidy) (hrefs : ∀ r ∈ refs, ∃ b, e.Lists m r b) :
    ∀ group ∈ e.removalGroups key visited refs, ∀ r ∈ group, ∃ b, e.Lists m r b := by
  induction refs generalizing visited with
  | nil => simp [removalGroups]
  | cons r refs ih =>
    rw [List.forall_mem_cons] at hrefs
    unfold removalGroups
    split
    · exact ih hrefs.2
    · split
      · exact ih hrefs.2
      · rw [List.forall_mem_cons]
        refine ⟨lists_of_mem_chain ht fun n hn => ?_, ih hrefs.2⟩
        obtain rfl := Option.some.inj hn
        exact hrefs.1

theorem steps_remove {key : K} {r : Except MapError (Option V)} (ht : e.Tidy)
    (h : Act.run (remove m key) e = (r, e')) : Steps m (∅, e) (∅, e') := by
  have hmono (e e' : Engine K V) (r : BlockRef) (ht : e.Tidy) (hsteps : Steps m (∅, e) (∅, e'))
      (hr : ∃ b, e.Lists m r b) : ∃ b, e'.Lists m r b := hsteps.lists ht hr
  have hgroup (e e' : Engine K V) (found : Option V) (group : List BlockRef)
      (r : Except MapError (Option V)) (ht : e.Tidy) (hg : ∀ r ∈ group, ∃ b, e.Lists m r b)
      (h : Act.run (removeFromGroup key group) e = (r, e')) : Steps m (∅, e) (∅, e') := by
    refine steps_foldlM (P := fun e r => ∃ b, e.Lists m r b) (fun e e' y z r ht hz h => ?_)
      hmono ht hg h
    rcases Act.bind_cases h with ⟨cause, hrun, -⟩ | ⟨value, e₁, hrun, hpure⟩
    · exact steps_removeFrom ht hz hrun
    · obtain ⟨-, rfl⟩ := Prod.mk.inj hpure
      exact steps_removeFrom ht hz hrun
  simp only [remove, Act.run_bind, Act.run_get] at h
  split at h
  · rename_i state hm
    refine steps_foldlM (P := fun e group => ∀ r ∈ group, ∃ b, e.Lists m r b)
      (fun e e' y group r ht hg h => ?_)
      (fun e e' group ht hsteps hg r hr => hmono e e' r ht hsteps (hg r hr)) ht
      (lists_of_mem_removalGroups ht fun r hr => ht.exists_lists hm hr) h
    rcases Act.bind_cases h with ⟨cause, hrun, -⟩ | ⟨value, e₁, hrun, hpure⟩
    · exact hgroup e _ y group _ ht hg hrun
    · obtain ⟨-, rfl⟩ := Prod.mk.inj hpure
      exact hgroup e _ y group _ ht hg hrun
  · obtain ⟨-, rfl⟩ := Prod.mk.inj h
    exact .refl

end Edit

/-! ### Snapshots -/

theorem steps_snapshotBlock {r : Except MapError (Option (BlockInfo K))} (hl : ∃ b, e.Lists m ref b)
    (h : Act.run (snapshotBlock ref) e = (r, e')) : Steps m (∅, e) (∅, e') := by
  obtain ⟨b, hl⟩ := hl
  rcases snapshotBlock_cases h with ⟨cause, hpersist, -⟩ |
    ⟨e₁, hpersist, ⟨-, -, rfl⟩ | ⟨b', -, ⟨-, -, rfl⟩ | ⟨-, -, rfl⟩⟩⟩
  · exact .single (.persist hl hpersist)
  · exact .single (.persist hl hpersist)
  · exact .single (.persist hl hpersist)
  · have hfirst : Steps m (∅, e) (∅, e₁) := .single (.persist hl hpersist)
    exact hfirst.tail (.note _)

theorem steps_snapshot {r : Except MapError (Snapshot K)} (ht : e.Tidy)
    (h : Act.run (snapshot m) e = (r, e')) : Steps m (∅, e) (∅, e') := by
  have hblocks (refs : List BlockRef) :
      ∀ (e : Engine K V) (r : Except MapError (List (Option (BlockInfo K)))),
      e.Tidy → (∀ ref ∈ refs, ∃ b, e.Lists m ref b) →
        Act.run (refs.mapM snapshotBlock) e = (r, e') →
      Steps m (∅, e) (∅, e') := by
    induction refs with
    | nil =>
      intro e r _ _ h
      obtain ⟨-, rfl⟩ := Prod.mk.inj h
      exact .refl
    | cons ref refs ih =>
      intro e r ht hrefs h
      rw [List.forall_mem_cons] at hrefs
      rcases Act.mapM_cons_cases h with ⟨cause, hfirst, -⟩ | ⟨info, e₁, rest, hfirst, hrest, -⟩
      · exact steps_snapshotBlock hrefs.1 hfirst
      · have hsteps := steps_snapshotBlock hrefs.1 hfirst
        exact hsteps.trans (ih e₁ _ (Steps.retains hsteps ht).tidy
          (fun r hr => hsteps.lists ht (hrefs.2 r hr)) hrest)
  rcases snapshot_cases h with ⟨-, -, rfl⟩ | ⟨state, infos, hm, hinfos, -⟩
  · exact .refl
  · exact hblocks _ e _ ht (fun r hr => ht.exists_lists hm hr) hinfos

end Engine

end PagedMap
