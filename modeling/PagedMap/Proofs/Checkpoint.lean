import Mathlib
import PagedMap.Engine.Snapshot
import PagedMap.Proofs.Standing

/-!
# Taking a snapshot

A snapshot describes the blocks of a map, without those of size 0, and the page of each block it
describes holds the entries of the block (`Engine.Describes`).  A page that was written is never
changed, so a snapshot goes on to describe the layout it was taken from.

Taking a snapshot changes no layout.  It fails if a block cannot be written to a page, and then the
block is in memory, dirty, and at its old page (`Engine.Unwritten`).
-/

namespace PagedMap.Engine

variable {K V : Type} [Wire K] [Wire V]

variable {e e' e'' : Engine K V} {m : Nat} {state : MapState K} {s : Stretch K V} {t : Layout K V}
  {limit : Option Nat} {ref : BlockRef}

/-- The snapshot describes the blocks of the layout but those of size 0, and their pages hold their
entries. -/
def Describes (e : Engine K V) (snapshot : Snapshot K) (t : Layout K V) : Prop :=
  List.Forall₂ (fun s info => info = { s.block.info with page := info.page } ∧
    e.readPage 0 info.page = .ok s.block.held)
    (t.filter fun s => s.block.size ≠ 0) snapshot.blocks

theorem Describes.mono {snapshot : Snapshot K} (h : e.Describes snapshot t)
    (hpages : ∀ page es, e.readPage 0 page = .ok es → e'.readPage 0 page = .ok es) :
    e'.Describes snapshot t :=
  List.Forall₂.imp (fun _ _ hinfo => ⟨hinfo.1, hpages _ _ hinfo.2⟩) h

/-- What does not depend on pages is the same of the descriptions as of the blocks, in order. -/
theorem Describes.map_eq {α : Type} {snapshot : Snapshot K} (h : e.Describes snapshot t)
    (f : BlockInfo K → α) (hf : ∀ (info : BlockInfo K) page, f { info with page } = f info) :
    snapshot.blocks.map f = (t.filter fun s => s.block.size ≠ 0).map fun s => f s.block.info := by
  have hinfos : List.Forall₂ Eq ((t.filter fun s => s.block.size ≠ 0).map fun s => f s.block.info)
      (snapshot.blocks.map f) := by
    rw [List.forall₂_map_left_iff, List.forall₂_map_right_iff]
    refine List.Forall₂.imp (fun s info hinfo => ?_) h
    rw [hinfo.1]
    exact (hf s.block.info info.page).symm
  rw [List.forall₂_eq_eq_eq] at hinfos
  exact hinfos.symm

/-- Every description is that of a block, and its page holds the entries of the block. -/
theorem Describes.exists_of_mem {snapshot : Snapshot K} (h : e.Describes snapshot t)
    {info : BlockInfo K} (hinfo : info ∈ snapshot.blocks) :
    ∃ s ∈ t, info = { s.block.info with page := info.page } ∧
      e.readPage 0 info.page = .ok s.block.held := by
  obtain ⟨i, hi, rfl⟩ := List.getElem_of_mem hinfo
  have hlt := (List.Forall₂.length_eq h).symm ▸ hi
  exact ⟨_, List.mem_of_mem_filter (List.getElem_mem hlt), List.Forall₂.get h hlt hi⟩

/-- The last that happened since `e` is that a page store failed to write a block of the layout,
which is in memory, dirty and at its old page. -/
def Unwritten (e' e : Engine K V) (t : Layout K V) (cause : StoreError) : Prop :=
  ∃ s ∈ t, ∃ b es earlier, e.blocks[s.ref]? = some b ∧ e'.blocks[s.ref]? = some b ∧
    b.entries = some es ∧ b.dirty = true ∧
    e'.events = .pageCreated b.home.store es (.error cause) :: earlier ∧ e.events <:+ earlier

omit [Wire K] [Wire V] in
theorem Unwritten.failedCreations_lt {cause : StoreError} (h : e'.Unwritten e t cause) :
    e.failedCreations < e'.failedCreations := by
  obtain ⟨s, -, b, es, earlier, -, -, -, -, hevents, hsuffix⟩ := h
  rw [failedCreations, failedCreations, hevents, List.countP_cons_of_pos rfl]
  exact Nat.lt_succ_of_le (List.Sublist.countP_le hsuffix.sublist)

/-! ### Writing one block -/

theorem createPage_error {store : Nat} {entries : List (K × V)} {cause : StoreError}
    (h : e.createPage store entries = (.error cause, e')) (hlt : store < e.stores.length) :
    e'.events = .pageCreated store entries (.error cause) :: e.events := by
  unfold createPage at h
  split at h
  · rename_i hnone
    simp [List.getElem?_eq_getElem hlt] at hnone
  · rename_i s hs
    generalize s.create e.volume entries = out at h
    obtain ⟨r, s', volume⟩ := out
    obtain ⟨rfl, rfl⟩ := Prod.mk.inj h
    rfl

theorem blocks_createPage {store : Nat} {entries : List (K × V)} {r : Except StoreError Nat}
    (h : e.createPage store entries = (r, e')) : e'.blocks = e.blocks := by
  unfold createPage at h
  split at h
  · obtain ⟨-, rfl⟩ := Prod.mk.inj h
    rfl
  · obtain ⟨-, rfl⟩ := Prod.mk.inj h
    rfl

theorem persist_other {r : Except MapError Unit} {ref' : BlockRef}
    (h : Act.run (persist ref) e = (r, e')) (hne : ref ≠ ref') :
    e'.blocks[ref']? = e.blocks[ref']? := by
  rcases persist_cases h with ⟨-, rfl, -⟩ | ⟨b, es, -, -, -, hcreate⟩
  · rfl
  · rcases hcreate with ⟨cause, hcreate, -⟩ | ⟨page, e₁, hcreate, -, rfl⟩
    · rw [blocks_createPage hcreate]
    · rw [← blocks_createPage hcreate]
      exact List.getElem?_set_ne hne

variable [LE K] [DecidableLE K] [Lossless K] [Lossless V]

theorem keeps_snapshotBlock {r : Except MapError (Option (BlockInfo K))}
    (h : Act.run (snapshotBlock ref) e = (r, e')) : Keeps limit e e' := by
  rcases snapshotBlock_cases h with ⟨cause, hpersist, -⟩ |
    ⟨e₁, hpersist, ⟨-, -, rfl⟩ | ⟨b, -, ⟨-, -, rfl⟩ | ⟨-, -, rfl⟩⟩⟩
  · exact keeps_persist hpersist
  · exact keeps_persist hpersist
  · exact keeps_persist hpersist
  · exact (keeps_persist hpersist).trans (keeps_record _)

theorem snapshotBlock_spec {r : Except MapError (Option (BlockInfo K))} (hr : e.Roomy limit)
    (hw : e'.Within limit) (hs : e.Shows s) (hstore : s.block.home.store = 0)
    (h : Act.run (snapshotBlock s.ref) e = (r, e')) :
    (∀ ref, s.ref ≠ ref → e'.blocks[ref]? = e.blocks[ref]?) ∧
      ((∃ cause, r = .error (.storage cause) ∧ e'.Unwritten e [s] cause) ∨
        r = .ok none ∧ s.block.size = 0 ∨
        ∃ info, r = .ok (some info) ∧ s.block.size ≠ 0 ∧
          info = { s.block.info with page := info.page } ∧
          e'.readPage 0 info.page = .ok s.block.held) := by
  obtain ⟨b, hb, hcoh, hsb⟩ := hs
  obtain ⟨st, hst, hroomy⟩ := hr
  rcases snapshotBlock_cases h with ⟨cause, hpersist, rfl⟩ | ⟨e₁, hpersist, hinfo⟩
  · -- the page was not written: the block is dirty and in memory
    refine ⟨fun ref hne => persist_other hpersist hne, Or.inl ?_⟩
    rcases persist_cases hpersist with ⟨hok, -⟩ | ⟨b', es, hb', hes, hdirty, hcreate⟩
    · simp at hok
    obtain rfl := Option.some.inj (hb.symm.trans hb')
    rcases hcreate with ⟨cause, hcreate, hcause⟩ | ⟨page, e₁, -, hok, -⟩
    · obtain rfl := Except.error.inj hcause
      have hlt : b.home.store < e.stores.length := by
        have hhome : b.home.store = 0 := by rw [← hstore, hsb]; rfl
        simp [hhome, hst]
      exact ⟨cause, rfl, s, by simp, b, es, e.events, hb, blocks_createPage hcreate ▸ hb, hes,
        hdirty, createPage_error hcreate hlt, List.suffix_refl _⟩
    · simp at hok
  · have hk : Keeps limit e e₁ := keeps_persist hpersist
    obtain ⟨b₁, hb₁⟩ : ∃ b₁, e₁.blocks[s.ref]? = some b₁ :=
      ⟨_, List.getElem?_eq_getElem (hk.length ▸ (List.getElem?_eq_some_iff.1 hb).1)⟩
    have hkind : Keeps limit e₁ e' ∧ e'.blocks = e₁.blocks ∧
        (r = .ok none ∧ b₁.size = 0 ∨ r = .ok (some b₁.info) ∧ b₁.size ≠ 0) := by
      rcases hinfo with ⟨hnone, -, -⟩ | ⟨b', hb', hinfo⟩
      · simp [hb₁] at hnone
      obtain rfl := Option.some.inj (hb₁.symm.trans hb')
      rcases hinfo with ⟨hsize, rfl, rfl⟩ | ⟨hsize, rfl, rfl⟩
      · exact ⟨.refl limit _, rfl, Or.inr ⟨rfl, hsize⟩⟩
      · exact ⟨keeps_record _, rfl, Or.inl ⟨rfl, hsize⟩⟩
    obtain ⟨hk', hblocks, hr'⟩ := hkind
    have hw₁ := hw.of_suffix hk'.events
    obtain ⟨b', hb', hcoh', hsame⟩ := hk.blocks hw₁ ⟨st, hst, hroomy⟩ _ b hb hcoh
    obtain rfl := Option.some.inj (hb₁.symm.trans hb')
    rw [← hsame] at hsb
    -- the page was written just now, or the block was clean before
    have hread : e₁.readPage b₁.home.store b₁.page = .ok (e₁.content b₁) := by
      rcases persist_clean hpersist hb₁ with hnone | hclean
      · exact hcoh'.read_of_none hnone
      · exact hcoh'.onPage hclean
    have hhome : b₁.home.store = 0 := by rw [← hstore, hsb]; rfl
    refine ⟨fun ref hne => by rw [hblocks, persist_other hpersist hne], Or.inr ?_⟩
    have hsize : s.block.size = b₁.size := by rw [hsb]; rfl
    refine hr'.imp (fun ⟨hr, hzero⟩ => ⟨hr, hsize.trans hzero⟩) fun ⟨hr, hne⟩ =>
      ⟨b₁.info, hr, hsize ▸ hne, by rw [hsb]; rfl, ?_⟩
    rw [hsb, Block.held_settled]
    refine hk'.pages hw (hk.roomy hw₁ ⟨st, hst, hroomy⟩) 0 b₁.page _ ?_
    rwa [hhome] at hread

/-! ### Writing all blocks -/

omit [Wire K] [Wire V] [LE K] [DecidableLE K] [Lossless K] [Lossless V] in
theorem Unwritten.mono {t' : Layout K V} {cause : StoreError} (h : e''.Unwritten e' t cause)
    (ht : t ⊆ t') (hblocks : ∀ s ∈ t, e'.blocks[s.ref]? = e.blocks[s.ref]?)
    (hevents : e.events <:+ e'.events) : e''.Unwritten e t' cause := by
  obtain ⟨s, hs, b, es, earlier, hb, hb', hes, hdirty, hlast, hsuffix⟩ := h
  exact ⟨s, ht hs, b, es, earlier, hblocks s hs ▸ hb, hb', hes, hdirty, hlast,
    hevents.trans hsuffix⟩

theorem keeps_mapM {refs : List BlockRef} {r : Except MapError (List (Option (BlockInfo K)))}
    (h : Act.run (refs.mapM snapshotBlock) e = (r, e')) : Keeps limit e e' := by
  induction refs generalizing e r with
  | nil =>
    obtain ⟨-, rfl⟩ := Prod.mk.inj h
    exact .refl limit _
  | cons ref refs ih =>
    rcases Act.mapM_cons_cases h with ⟨cause, hfirst, -⟩ | ⟨info, e₁, rest, hfirst, hrest, -⟩
    · exact keeps_snapshotBlock hfirst
    · exact (keeps_snapshotBlock hfirst).trans (ih hrest)

theorem mapM_snapshotBlock {r : Except MapError (List (Option (BlockInfo K)))}
    (hr : e.Roomy limit) (hw : e'.Within limit)
    (hshows : ∀ s ∈ t, e.Shows s ∧ s.block.home.store = 0)
    (hapart : t.Pairwise fun s n => s.ref ≠ n.ref)
    (h : Act.run ((t.map (·.ref)).mapM snapshotBlock) e = (r, e')) :
    (∃ cause, r = .error (.storage cause) ∧ e'.Unwritten e t cause) ∨
      ∃ infos, r = .ok infos ∧ e'.Describes ⟨infos.filterMap id⟩ t := by
  induction t generalizing e r with
  | nil =>
    obtain ⟨rfl, rfl⟩ := Prod.mk.inj h
    exact Or.inr ⟨[], rfl, List.Forall₂.nil⟩
  | cons s t ih =>
    obtain ⟨hne, hapart⟩ := List.pairwise_cons.1 hapart
    obtain ⟨hs, hstore⟩ := hshows s (by simp)
    rcases Act.mapM_cons_cases h with ⟨cause, hfirst, rfl⟩ | ⟨o, e₁, rest, hfirst, hrest, rfl⟩
    · obtain ⟨-, ⟨c, hc, hunwritten⟩ | ⟨hok, -⟩ | ⟨info, hok, -⟩⟩ :=
        snapshotBlock_spec hr hw hs hstore hfirst
      · refine Or.inl ⟨c, by rw [Except.error.inj hc], ?_⟩
        exact hunwritten.mono (by simp) (fun _ _ => rfl) (List.suffix_refl _)
      · simp at hok
      · simp at hok
    · have hk : Keeps limit e e₁ := keeps_snapshotBlock hfirst
      have hkrest : Keeps limit e₁ e' := keeps_mapM hrest
      have hw₁ := hw.of_suffix hkrest.events
      have hroomy := hk.roomy hw₁ hr
      obtain ⟨hother, hcases⟩ := snapshotBlock_spec hr hw₁ hs hstore hfirst
      obtain ⟨c, rfl, hunwritten⟩ | ⟨infos, rfl, hdescribes⟩ :=
        ih hroomy (fun n hn => ⟨hk.shows hw₁ hr (hshows n (by simp [hn])).1,
          (hshows n (by simp [hn])).2⟩) hapart hrest
      · refine Or.inl ⟨c, rfl, ?_⟩
        exact hunwritten.mono (by simp) (fun n hn => hother n.ref (hne n hn)) hk.events
      · refine Or.inr ⟨_, rfl, ?_⟩
        obtain ⟨c, hc, -⟩ | ⟨hok, hzero⟩ | ⟨info, hok, hsize, hinfo, hread⟩ := hcases
        · simp at hc
        · obtain rfl := Except.ok.inj hok
          simpa [Describes, hzero] using hdescribes
        · obtain rfl := Except.ok.inj hok
          -- the pages that are written for the other blocks leave this one as it is
          have hcons := List.Forall₂.cons ⟨hinfo, hkrest.pages hw hroomy 0 info.page _ hread⟩
            hdescribes
          simpa [Describes, hsize] using hcons

theorem keeps_snapshot {r : Except MapError (Snapshot K)}
    (h : Act.run (snapshot m) e = (r, e')) : Keeps limit e e' := by
  rcases snapshot_cases h with ⟨-, -, rfl⟩ | ⟨state, infos, -, hinfos, -⟩
  · exact .refl limit _
  · exact keeps_mapM hinfos

/-- What comes of taking a snapshot: it fails if a block cannot be written, or it describes the
layout. -/
theorem snapshot_spec {r : Except MapError (Snapshot K)} (hs : e.AllHold limit)
    (hw : e'.Within limit) (hm : e.maps[m]? = some state)
    (h : Act.run (snapshot m) e = (r, e')) :
    (∃ cause, r = .error (.storage cause) ∧ e'.Unwritten e (e.layout m) cause) ∨
      ∃ snapshot, r = .ok snapshot ∧ e'.Describes snapshot (e.layout m) := by
  have hh := hs.holds m state hm
  have hshows (s : Stretch K V) (hmem : s ∈ e.layout m) : e.Shows s ∧ s.block.home.store = 0 :=
    ⟨hh.shows s hmem, by rw [hh.homes s hmem, hh.store]⟩
  rcases snapshot_cases h with ⟨hnone, -, -⟩ | ⟨state', infos, hm', hinfos, rfl⟩
  · simp [hm] at hnone
  obtain rfl := Option.some.inj (hm.symm.trans hm')
  rw [hh.directory, Layout.refs_directory] at hinfos
  obtain ⟨c, rfl, hunwritten⟩ | ⟨infos, rfl, hdescribes⟩ :=
    mapM_snapshotBlock hs.roomy hw hshows (hh.tiled.apart.imp fun hp => hp.1) hinfos
  · exact Or.inl ⟨c, rfl, hunwritten⟩
  · exact Or.inr ⟨_, rfl, hdescribes⟩

end PagedMap.Engine
