import Mathlib
import PagedMap.Proofs.Checkpoint

/-!
# Giving up and restoring the blocks of a map

Giving up the blocks of a map leaves the layouts of the other maps (`Engine.clear_spec`,
`Engine.drop_spec`).  Restoring a map from a snapshot makes its layout that which the snapshot
describes: the blocks are numbered and bounded as they were, and their successors are forgotten
(`Block.revived`, `Engine.restore_spec`).  Blocks of size 0 are left out, so the contents are those
of the other blocks.
-/

namespace PagedMap

variable {K V : Type}

/-! ### Layouts without successors -/

namespace Block

/-- The block as it is restored from its description, with its entries. -/
def revived (home : Home) (b : Block K V) : Block K V := (ofInfo home b.info).settled b.held

variable {b : Block K V}

/-- A restored block starts before every key or at its least key. -/
theorem InBounds.revived [LE K] [DecidableLE K] [Std.IsLinearOrder K] (h : b.InBounds)
    (home : Home) : (b.revived home).InBounds := by
  have hstart : (b.revived home).start = if b.id = 0 then .head else .at b.minKey b.id := rfl
  refine ⟨h.sorted, h.within, h.min_le_max, reaches_iff.2 fun k hk => ?_, ?_⟩
  · rw [hstart] at hk
    split at hk
    · simp [Start.key?] at hk
    · obtain rfl : b.minKey = k := Option.some.inj hk
      exact Std.le_refl _
  · by_cases hid : b.id = 0
    · exact Or.inl ⟨hstart.trans (if_pos hid), hid⟩
    · exact Or.inr ⟨b.minKey, hstart.trans (if_neg hid), hid⟩

/-- A smaller overhead makes room in a restored block. -/
theorem excess_le_revived [Sized K] [Sized V] {home : Home}
    (h : home.entryOverhead ≤ b.home.entryOverhead) : b.excess ≤ (b.revived home).excess := by
  have hweight : ∀ entry ∈ b.held, home.weight entry ≤ b.home.weight entry := fun entry _ =>
    Nat.add_le_add_left h _
  have hsum : (b.held.map home.weight).sum ≤ (b.held.map b.home.weight).sum :=
    List.sum_le_sum hweight
  have hexcess : (b.revived home).excess = b.size - (b.held.map home.weight).sum := rfl
  rw [hexcess, excess]
  omega

end Block

namespace Layout

/-- Blocks at successive references. -/
def place : (base : BlockRef) → List (Block K V) → Layout K V
  | _, [] => []
  | base, b :: bs => ⟨base, b⟩ :: place (base + 1) bs

/-- The blocks that a snapshot of the layout describes, restored. -/
def revived (home : Home) (t : Layout K V) : List (Block K V) :=
  (t.filter fun s => s.block.size ≠ 0).map (·.block.revived home)

variable {base : BlockRef} {bs : List (Block K V)} {s : Stretch K V} {t : Layout K V} {lastId : Nat}
  {home : Home}

theorem le_ref_of_mem_place (h : s ∈ place base bs) : base ≤ s.ref ∧ s.block ∈ bs := by
  induction bs generalizing base with
  | nil => simp [place] at h
  | cons b bs ih =>
    rcases List.mem_cons.1 h with rfl | h
    · exact ⟨Nat.le_refl _, by simp⟩
    · obtain ⟨hle, hmem⟩ := ih h
      exact ⟨Nat.le_of_succ_le hle, by simp [hmem]⟩

theorem contents_place (base : BlockRef) (bs : List (Block K V)) :
    (place base bs).contents = bs.flatMap Block.held := by
  induction bs generalizing base with
  | nil => rfl
  | cons b bs ih => rw [place, contents_cons, ih, List.flatMap_cons]

/-- The contents of a restored layout are those of the blocks described. -/
theorem contents_revived (base : BlockRef) (home : Home) (t : Layout K V) :
    (place base (t.revived home)).contents =
      (t.filter fun s => s.block.size ≠ 0).flatMap fun s => s.block.held := by
  rw [contents_place, revived, List.flatMap_map]
  rfl

variable [LE K] [DecidableLE K]

/-- Blocks without successors need not be looked at for links. -/
theorem Tiled.of_unlinked (hblocks : ∀ s ∈ t, s.block.InBounds)
    (hids : ∀ s ∈ t, s.block.id ≤ lastId) (hapart : t.Pairwise Precedes)
    (hnext : ∀ s ∈ t, s.block.next = none) : t.Tiled lastId := by
  refine ⟨hblocks, hids, hapart, ?_⟩
  clear hblocks hids hapart
  induction t with
  | nil => trivial
  | cons s t ih =>
    refine ⟨fun ref href => ?_, ih fun n hn => hnext n (by simp [hn])⟩
    simp [hnext s (by simp)] at href

omit [LE K] [DecidableLE K] in
theorem pairwise_place {r : Block K V → Block K V → Prop} (h : bs.Pairwise r) :
    (place base bs).Pairwise fun s n => s.ref ≠ n.ref ∧ r s.block n.block := by
  induction bs generalizing base with
  | nil => exact List.Pairwise.nil
  | cons b bs ih =>
    obtain ⟨hb, hbs⟩ := List.pairwise_cons.1 h
    refine List.pairwise_cons.2 ⟨fun n hn => ?_, ih hbs⟩
    obtain ⟨hle, hmem⟩ := le_ref_of_mem_place hn
    exact ⟨Nat.ne_of_lt hle, hb _ hmem⟩

variable [Std.IsLinearOrder K]

/-- The blocks of a layout that is tiled are restored apart from each other. -/
theorem Tiled.apart_revived (h : t.Tiled lastId) (base : BlockRef) (home : Home) :
    (place base (t.revived home)).Pairwise Precedes := by
  have hmap : (t.revived home).Pairwise fun b n => b.id ≠ n.id ∧
      ∃ k ∈ n.start.key?, ¬ k ≤ b.maxKey := by
    refine List.pairwise_map.2 ((h.apart.imp_of_mem fun {s n} hs hn hp => ?_).filter _)
    have hlt := hp.lt (h.blocks n hn)
    obtain ⟨-, hid, k, hk, -⟩ := hp
    refine ⟨hid, n.block.minKey, ?_, hlt⟩
    have hne : n.block.id ≠ 0 := by
      rcases (h.blocks n hn).start_eq with ⟨hstart, -⟩ | ⟨-, -, hne⟩
      · simp [hstart, Start.key?] at hk
      · exact hne
    have hstart : (n.block.revived home).start = .at n.block.minKey n.block.id := if_neg hne
    rw [hstart]
    rfl
  exact (pairwise_place hmap).imp fun hp => ⟨hp.1, hp.2⟩

end Layout

/-! ### Giving up blocks -/

namespace Engine

variable {e e' e₁ : Engine K V} {m : Nat} {state : MapState K} {t : Layout K V} {limit : Option Nat}
  {ref : BlockRef} {refs : List BlockRef}

/-- Nothing is touched but blocks at these references, policies and events. -/
structure Confined (refs : List BlockRef) (e e' : Engine K V) : Prop where
  events : e.events <:+ e'.events
  maps : e'.maps = e.maps
  stores : e'.stores = e.stores
  volume : e'.volume = e.volume
  blocks : ∀ ref ∉ refs, e'.blocks[ref]? = e.blocks[ref]?

theorem Confined.refl (refs : List BlockRef) (e : Engine K V) : Confined refs e e :=
  ⟨List.suffix_refl _, rfl, rfl, rfl, fun _ _ => rfl⟩

theorem Confined.trans {e'' : Engine K V} (h : Confined refs e e') (h' : Confined refs e' e'') :
    Confined refs e e'' :=
  ⟨h.events.trans h'.events, h'.maps.trans h.maps, h'.stores.trans h.stores,
    h'.volume.trans h.volume, fun ref href => (h'.blocks ref href).trans (h.blocks ref href)⟩

theorem confined_record (refs : List BlockRef) (event : Event K V) (e : Engine K V) :
    Confined refs e (e.record event) :=
  ⟨List.suffix_cons _ _, rfl, rfl, rfl, fun _ _ => rfl⟩

theorem confined_foldl {f : Engine K V → BlockRef → Engine K V}
    (hf : ∀ e, ∀ ref ∈ refs, Confined refs e (f e ref)) (e : Engine K V) :
    Confined refs e (refs.foldl f e) := by
  suffices h : ∀ rest ⊆ refs, ∀ e, Confined refs e (rest.foldl f e) from h refs (by simp) e
  intro rest
  induction rest with
  | nil => exact fun _ e => .refl refs e
  | cons ref rest ih =>
    intro hsub e
    exact (hf e ref (hsub (by simp))).trans (ih (fun r hr => hsub (by simp [hr])) _)

theorem confined_removePage (refs : List BlockRef) (policy : Nat) (page : Page BlockRef)
    (e : Engine K V) : Confined refs e (e.removePage policy page) := by
  have hreport := confined_record refs (.reported .remove policy page) e
  dsimp only [removePage]
  split
  · exact hreport
  · exact ⟨hreport.events, rfl, rfl, rfl, fun _ _ => rfl⟩

theorem confined_discard (href : ref ∈ refs) (e : Engine K V) :
    Confined refs e (e.discard ref) := by
  unfold discard
  split
  · exact .refl refs e
  · rename_i b hb
    have hset : Confined refs e (e.setBlock ref b.forgotten) :=
      ⟨List.suffix_refl _, rfl, rfl, rfl, fun r hr =>
        List.getElem?_set_ne fun heq : ref = r => hr (heq ▸ href)⟩
    exact hset.trans (confined_removePage refs _ _ _)

theorem confined_release (href : ref ∈ refs) (e : Engine K V) :
    Confined refs e (e.release ref) := by
  refine ⟨List.suffix_refl _, rfl, rfl, rfl, fun r hr => ?_⟩
  have hne : ref ≠ r := fun heq => hr (heq ▸ href)
  simp [release, hne]

variable [Wire K] [Wire V] [LE K] [DecidableLE K]

/-- A map whose blocks are given up loses its layout, and the other maps keep theirs. -/
theorem changes_give_up (hs : e.AllHold limit) (hm : e.maps[m]? = some state)
    (h₁ : Confined state.directory.refs e e₁)
    (h₂ : Confined state.directory.refs (e₁.setMap m { state with directory := [] }) e') :
    Changes limit m e e' ∧ e'.layout m = [] := by
  have hh := hs.holds m state hm
  obtain ⟨hlt, -⟩ := List.getElem?_eq_some_iff.1 hm
  have hmaps : e'.maps = e.maps.set m { state with directory := [] } := by
    rw [h₂.maps, setMap, h₁.maps]
  have hget : e'.maps[m]? = some { state with directory := [] } := by
    rw [hmaps, List.getElem?_set_self hlt]
  refine Changes.of_edit hs hm hget (fun m' hne => ?_) rfl
    (h₂.stores.trans h₁.stores) (h₂.volume.trans h₁.volume) (h₁.events.trans h₂.events)
    (fun s hne hshows => ?_) ⟨rfl, by simp, by simp, hh.owner, hh.store, ?_⟩
  · rw [hmaps, List.getElem?_set_ne hne.symm]
  · have href : s.ref ∉ state.directory.refs := by
      rw [hh.directory, Layout.refs_directory, List.mem_map]
      rintro ⟨x, hx, hxs⟩
      refine hne ?_
      rw [← (hh.shows x hx).home_eq hshows hxs, hh.homes x hx, hh.owner]
    exact hshows.of_frame ((h₂.blocks _ href).trans (h₁.blocks _ href))
      (h₂.stores.trans h₁.stores) (h₂.volume.trans h₁.volume)
  · exact ⟨by simp, by simp, List.Pairwise.nil, trivial⟩

theorem clear_spec (hs : e.AllHold limit) (hm : e.maps[m]? = some state) :
    Changes limit m e (e.clear m) ∧ (e.clear m).layout m = [] ∧
      (e.clear m).maps[m]? = some { state with directory := [] } := by
  obtain ⟨hlt, -⟩ := List.getElem?_eq_some_iff.1 hm
  have hdiscard : Confined state.directory.refs e (state.directory.refs.foldl discard e) :=
    confined_foldl (fun e ref href => confined_discard href e) e
  have hclear : e.clear m = (Engine.setMap m { state with directory := [] }
      (state.directory.refs.foldl discard e)).notify .mapCleared := by
    rw [clear, hm]
  have hnotice := confined_record state.directory.refs (.noticed .mapCleared)
    (Engine.setMap m { state with directory := [] } (state.directory.refs.foldl discard e))
  obtain ⟨hchanges, hlayout⟩ := changes_give_up hs hm hdiscard hnotice
  rw [hclear]
  refine ⟨hchanges, hlayout, ?_⟩
  rw [notify, hnotice.maps, setMap, hdiscard.maps, List.getElem?_set_self hlt]

theorem drop_spec (hs : e.AllHold limit) (hm : e.maps[m]? = some state) :
    Changes limit m e (e.drop m) ∧ (e.drop m).layout m = [] := by
  have hdiscard : Confined state.directory.refs e (state.directory.refs.foldl discard e) :=
    confined_foldl (fun e ref href => confined_discard href e) e
  have hdrop : e.drop m = state.directory.refs.foldl release
      ((Engine.setMap m { state with directory := [] }
        (state.directory.refs.foldl discard e)).notify .mapCleared) := by
    rw [drop, hm]
    dsimp only
    rw [clear, hm]
  rw [hdrop]
  exact changes_give_up hs hm hdiscard ((confined_record _ _ _).trans
    (confined_foldl (fun e ref href => confined_release href e) _))

/-! ### Restoring blocks -/

/-- A block that is described and has its entries on a page may be listed behind all others. -/
theorem restoreBlock_spec [Std.IsLinearOrder K] {info : BlockInfo K} {es : Entries K V}
    (hs : e.AllHold limit) (hm : e.maps[m]? = some state) (hread : e.readPage 0 info.page = .ok es)
    (hsorted : es.Sorted)
    (htiled : Layout.Tiled (max state.lastId info.id)
      (e.layout m ++ [⟨e.blocks.length, (Block.ofInfo state.home info).settled es⟩])) :
    Changes limit m e (restoreBlock m e info) ∧
      (restoreBlock m e info).layout m =
        e.layout m ++ [⟨e.blocks.length, (Block.ofInfo state.home info).settled es⟩] ∧
      (restoreBlock m e info).blocks.length = e.blocks.length + 1 ∧
      ∃ state', (restoreBlock m e info).maps[m]? = some state' ∧ state'.home = state.home := by
  have hh := hs.holds m state hm
  obtain ⟨hlt, -⟩ := List.getElem?_eq_some_iff.1 hm
  set b : Block K V := Block.ofInfo state.home info with hb
  set x : Stretch K V := ⟨e.blocks.length, b.settled es⟩ with hx
  set state' : MapState K := { state with
    directory := Directory.insert b.start e.blocks.length state.directory
    lastId := max state.lastId info.id } with hstate'
  set e' : Engine K V := ((e.notify (.blockRestored b.id)).addBlock b).setMap m state' with he'
  have hrestore : restoreBlock m e info = e' := by
    rw [restoreBlock, hm]
  rw [hrestore]
  have hget : e'.maps[m]? = some state' := List.getElem?_set_self hlt
  have hkept (y : Stretch K V) (hy : e.Shows y) : e'.Shows y :=
    hy.of_frame (List.getElem?_append_left hy.lt_length) rfl rfl
  -- the block is clean and not in memory, so its entries are those of its page
  have hnew : e'.Shows x := by
    have hstore : b.home.store = 0 := hh.store
    have hread' : e'.readPage b.home.store b.page = .ok es := by
      rw [hstore]
      exact hread
    have hcontent : e'.content b = es := by
      rw [content_of_none rfl, stored_of_read hread', Entries.ofList_eq_self hsorted]
    refine ⟨b, by simp [he', setMap, addBlock, notify, record, hx],
      ⟨?_, fun hdirty => ?_, fun _ => ?_⟩, ?_⟩
    · rwa [hcontent]
    · simp [hb, Block.ofInfo] at hdirty
    · rwa [hcontent]
    · rw [hcontent]
  have hholds : e'.Holds m state' (e.layout m ++ [x]) := by
    refine ⟨?_, ?_, ?_, hh.owner, hh.store, htiled⟩
    · have hascending := htiled.ascending
      rw [Layout.directory_append] at hascending ⊢
      have hinsert : Directory.insert x.block.start x.ref ((e.layout m).directory ++ []) =
          (e.layout m).directory ++ [(x.block.start, x.ref)] := Directory.insert_eq hascending
      rw [List.append_nil] at hinsert
      exact (congrArg _ hh.directory).trans hinsert
    · rw [List.forall_mem_append, List.forall_mem_singleton]
      exact ⟨fun y hy => hkept y (hh.shows y hy), hnew⟩
    · rw [List.forall_mem_append, List.forall_mem_singleton]
      exact ⟨hh.homes, rfl⟩
  obtain ⟨hchanges, hlayout⟩ := Changes.of_edit hs hm hget
    (fun m' hne => List.getElem?_set_ne hne.symm) rfl rfl rfl (List.suffix_cons _ _)
    (fun y _ hy => hkept y hy) hholds
  refine ⟨hchanges, hlayout, ?_, state', hget, rfl⟩
  simp [he', setMap, addBlock, notify, record]

/-- Blocks that are described and have their entries on pages may be listed one after the other. -/
theorem foldl_restoreBlock [Std.IsLinearOrder K] {ts : Layout K V} {infos : List (BlockInfo K)}
    (hs : e.AllHold limit) (hm : e.maps[m]? = some state)
    (hinfos : List.Forall₂ (fun s info => info = { s.block.info with page := info.page } ∧
      e.readPage 0 info.page = .ok s.block.held) ts infos)
    (hblocks : ∀ s ∈ ts, s.block.InBounds)
    (hnext : ∀ s ∈ e.layout m, s.block.next = none)
    (hapart : (e.layout m ++ Layout.place e.blocks.length
      (ts.map (·.block.revived state.home))).Pairwise Layout.Precedes) :
    Changes limit m e (infos.foldl (restoreBlock m) e) ∧
      (infos.foldl (restoreBlock m) e).layout m =
        e.layout m ++ Layout.place e.blocks.length (ts.map (·.block.revived state.home)) := by
  induction ts generalizing e state infos with
  | nil =>
    cases hinfos
    exact ⟨.refl hs m, (List.append_nil _).symm⟩
  | cons s ts ih =>
    obtain _ | @⟨_, info, _, infos, ⟨hinfo, hread⟩, hinfos⟩ := hinfos
    have hh := hs.holds m state hm
    have hsame : (Block.ofInfo state.home info).settled s.block.held =
        s.block.revived state.home := by
      rw [hinfo]
      rfl
    have hblock := hblocks s (by simp)
    rw [List.map_cons, Layout.place] at hapart
    have hcut : e.layout m ++ ⟨e.blocks.length, s.block.revived state.home⟩ ::
        Layout.place (e.blocks.length + 1) (ts.map (·.block.revived state.home)) =
        (e.layout m ++ [⟨e.blocks.length, s.block.revived state.home⟩]) ++
          Layout.place (e.blocks.length + 1) (ts.map (·.block.revived state.home)) := by simp
    rw [hcut] at hapart
    -- restored blocks have no successors, so there are no links to look at
    have hnext' : ∀ y ∈ e.layout m ++ [⟨e.blocks.length, s.block.revived state.home⟩],
        y.block.next = none := by
      rw [List.forall_mem_append, List.forall_mem_singleton]
      exact ⟨hnext, rfl⟩
    have htiled : Layout.Tiled (max state.lastId info.id)
        (e.layout m ++ [⟨e.blocks.length, s.block.revived state.home⟩]) := by
      refine .of_unlinked ?_ ?_ (List.pairwise_append.1 hapart).1 hnext'
      · rw [List.forall_mem_append, List.forall_mem_singleton]
        exact ⟨hh.tiled.blocks, hblock.revived state.home⟩
      · rw [List.forall_mem_append, List.forall_mem_singleton]
        refine ⟨fun y hy => Nat.le_trans (hh.tiled.ids y hy) (Nat.le_max_left _ _), ?_⟩
        rw [hinfo]
        exact Nat.le_max_right _ _
    rw [← hsame] at htiled
    obtain ⟨hchanges, hlayout, hlength, state', hm', hhome⟩ :=
      restoreBlock_spec hs hm hread hblock.sorted htiled
    rw [hsame] at hlayout
    have hrest := ih hchanges.allHold hm'
      (hinfos.imp fun _ _ hi => ⟨hi.1, hchanges.pages _ _ _ hi.2⟩)
      (fun y hy => hblocks y (by simp [hy])) (hlayout ▸ hnext')
      (by rwa [hlayout, hlength, hhome])
    refine ⟨hchanges.trans hrest.1, ?_⟩
    rw [List.foldl_cons, hrest.2, hlayout, hlength, hhome, List.map_cons, Layout.place, hcut]

/-- What comes of restoring a map from the snapshot of a layout. -/
theorem restore_spec [Std.IsLinearOrder K] {snapshot : Snapshot K} {lastId : Nat}
    (hs : e.AllHold limit) (hm : e.maps[m]? = some state) (hd : e.Describes snapshot t)
    (ht : t.Tiled lastId) :
    Changes limit m e (e.restore m snapshot) ∧
      ∃ base, (e.restore m snapshot).layout m = Layout.place base (t.revived state.home) := by
  have hnotice : Changes limit m e (e.notify (.mapRestored snapshot.blocks.length)) :=
    changes_record hs hm _
  obtain ⟨hclear, hlayout, hget⟩ := clear_spec hnotice.allHold hm
  have hpages := hnotice.trans hclear
  have hapart := ht.apart_revived
    ((e.notify (.mapRestored snapshot.blocks.length)).clear m).blocks.length state.home
  obtain ⟨hrest, hrestored⟩ := foldl_restoreBlock hclear.allHold hget
    (hd.mono fun page es hread => hpages.pages 0 page es hread)
    (fun s hmem => ht.blocks s (List.mem_of_mem_filter hmem)) (by simp [hlayout])
    (by rwa [hlayout])
  exact ⟨hpages.trans hrest, _, by rw [restore, hrestored, hlayout]; rfl⟩

end Engine

end PagedMap
