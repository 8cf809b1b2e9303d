import Mathlib
import PagedMap.Proofs.Calls
import PagedMap.Proofs.Deeds

/-!
# Dirty blocks and the maps that list them

A dirty block is in memory as long as a map lists it, and out of memory as soon as its map gave it
up (`Engine.Moored`).  What is done on behalf of a map is done with listed blocks, so a block that
was given up while it was dirty stays as it is (`Engine.Effect.secures`): nobody reads it, unless a
scan goes on that was to read it before its map gave it up.

No condition is on the snapshots that maps are restored from, and page stores may fail at any time.
-/

namespace PagedMap

variable {K V : Type}

namespace Engine

/-- A dirty block is in memory if a map lists it, and only then. -/
def Moored (e : Engine K V) : Prop :=
  ∀ (ref : BlockRef) (b : Block K V), e.blocks[ref]? = some b → b.dirty = true →
    (b.entries.isSome = true ↔ ∃ m b, e.Lists m ref b)

/-- Dirty blocks stay moored, and those that are adrift stay so. -/
structure Secures (e e' : Engine K V) : Prop where
  moored : e'.Moored
  drift : ∀ ref, e.Adrift ref → e'.Adrift ref

variable {e e' e'' : Engine K V} {m : Nat} {state : MapState K} {ref : BlockRef} {b b' : Block K V}

theorem Secures.refl (h : e.Moored) : Secures e e := ⟨h, fun _ hr => hr⟩

theorem Secures.trans (h : Secures e e') (h' : Secures e' e'') : Secures e e'' :=
  ⟨h'.moored, fun ref hr => h'.drift ref (h.drift ref hr)⟩

/-- No map lists a block that is adrift. -/
theorem Moored.not_lists (h : e.Moored) (hr : e.Adrift ref) : ¬ e.Lists m ref b := by
  intro hl
  obtain ⟨c, hc, hdirty, hnone⟩ := hr
  have hsome := (h ref c hc hdirty).2 ⟨m, b, hl⟩
  simp [hnone] at hsome

/-- A listed block that is dirty is in memory. -/
theorem Moored.loaded (h : e.Moored) (hl : e.Lists m ref b) (hdirty : b.dirty = true) :
    b.entries.isSome = true :=
  (h ref b hl.blocks_eq hdirty).2 ⟨m, b, hl⟩

/-! ### Steps that read nothing -/

/-- No block comes into memory, and none gets dirty or leaves memory while it is dirty. -/
structure Steady (e e' : Engine K V) : Prop where
  maps : e'.maps = e.maps
  length : e'.blocks.length = e.blocks.length
  blocks : ∀ (ref : BlockRef) (b : Block K V), e.blocks[ref]? = some b →
    ∃ b', e'.blocks[ref]? = some b' ∧ (b'.dirty = true → b.dirty = true ∧ b'.entries = b.entries) ∧
    (b.dirty = true → b.entries = none → b'.dirty = true ∧ b'.entries = none)

theorem Steady.trans (h : Steady e e') (h' : Steady e' e'') : Steady e e'' where
  maps := h'.maps.trans h.maps
  length := h'.length.trans h.length
  blocks ref b hb := by
    obtain ⟨b', hb', hdirty, hdrift⟩ := h.blocks ref b hb
    obtain ⟨b'', hb'', hdirty', hdrift'⟩ := h'.blocks ref b' hb'
    refine ⟨b'', hb'', fun hd => ?_, fun hd hnone => ?_⟩
    · obtain ⟨hd', hsame'⟩ := hdirty' hd
      obtain ⟨hd, hsame⟩ := hdirty hd'
      exact ⟨hd, hsame'.trans hsame⟩
    · obtain ⟨hd', hnone'⟩ := hdrift hd hnone
      exact hdrift' hd' hnone'

theorem Steady.of_blocks (hmaps : e'.maps = e.maps) (hblocks : e'.blocks = e.blocks) :
    Steady e e' :=
  ⟨hmaps, congrArg List.length hblocks,
    fun _ b hb => ⟨b, hblocks ▸ hb, fun hd => ⟨hd, rfl⟩, fun hd hn => ⟨hd, hn⟩⟩⟩

theorem Steady.of_set (hmaps : e'.maps = e.maps) (hb : e.blocks[ref]? = some b)
    (hblocks : e'.blocks = e.blocks.set ref b')
    (hdirty : b'.dirty = true → b.dirty = true ∧ b'.entries = b.entries)
    (hdrift : b.dirty = true → b.entries = none → b'.dirty = true ∧ b'.entries = none) :
    Steady e e' := by
  refine ⟨hmaps, by rw [hblocks, List.length_set], fun r c hc => ?_⟩
  by_cases hr : ref = r
  · subst hr
    obtain rfl := Option.some.inj (hb.symm.trans hc)
    exact ⟨b', by rw [hblocks, List.getElem?_set_self (List.getElem?_eq_some_iff.1 hb).1],
      hdirty, hdrift⟩
  · exact ⟨c, by rw [hblocks, List.getElem?_set_ne hr, hc], fun hd => ⟨hd, rfl⟩,
      fun hd hn => ⟨hd, hn⟩⟩

theorem Steady.lists_iff (h : Steady e e') :
    (∃ m b, e'.Lists m ref b) ↔ ∃ m b, e.Lists m ref b := by
  constructor
  · rintro ⟨m, b', state, hm, hr, hb'⟩
    have hlt : ref < e.blocks.length := h.length ▸ (List.getElem?_eq_some_iff.1 hb').1
    exact ⟨m, _, state, h.maps ▸ hm, hr, List.getElem?_eq_getElem hlt⟩
  · rintro ⟨m, b, state, hm, hr, hb⟩
    obtain ⟨b', hb', -⟩ := h.blocks ref b hb
    exact ⟨m, b', state, h.maps.symm ▸ hm, hr, hb'⟩

theorem Steady.secures (h : Steady e e') (hmoored : e.Moored) : Secures e e' := by
  refine ⟨fun ref b' hb' hdirty' => ?_, fun ref ⟨b, hb, hdirty, hnone⟩ => ?_⟩
  · have hlt : ref < e.blocks.length := h.length ▸ (List.getElem?_eq_some_iff.1 hb').1
    have hb := List.getElem?_eq_getElem hlt
    obtain ⟨c, hc, hdirty, -⟩ := h.blocks ref _ hb
    obtain rfl := Option.some.inj (hb'.symm.trans hc)
    obtain ⟨hd, hsame⟩ := hdirty hdirty'
    rw [h.lists_iff, hsame]
    exact hmoored ref _ hb hd
  · obtain ⟨b', hb', -, hdrift⟩ := h.blocks ref b hb
    exact ⟨b', hb', hdrift hdirty hnone⟩

theorem steady_hitPage (policy : Nat) (page : Page BlockRef) (e : Engine K V) :
    Steady e (e.hitPage policy page) := by
  dsimp only [hitPage]
  split <;> exact .of_blocks rfl rfl

theorem steady_removePage (policy : Nat) (page : Page BlockRef) (e : Engine K V) :
    Steady e (e.removePage policy page) := by
  dsimp only [removePage]
  split <;> exact .of_blocks rfl rfl

section Write

variable [Wire K] [Wire V]

theorem steady_persist {x : Except MapError Unit} (h : Act.run (persist ref) e = (x, e')) :
    Steady e e' := by
  have hmaps := (quiet_persist h).1.maps
  cases hb : e.blocks[ref]? with
  | none =>
    rcases persist_cases h with ⟨-, rfl, -⟩ | ⟨b, es, hsome, -⟩
    · exact .of_blocks rfl rfl
    · simp [hb] at hsome
  | some b =>
    rcases persist_writes h hb with ⟨-, hblocks, -⟩ | ⟨es, page, done, hes, hdirty, -, hblocks, -⟩
    · exact .of_blocks hmaps hblocks
    · exact .of_set hmaps hb hblocks (fun _ => ⟨hdirty, rfl⟩) fun _ hnone => by simp [hes] at hnone

theorem steady_unload {page : Nat} {x : Except MapError Bool}
    (h : Act.run (unload ref page) e = (x, e')) : Steady e e' := by
  rcases unload_cases h with ⟨rfl, -⟩ | ⟨b, es, hb, hes, hpersist⟩
  · exact .of_blocks rfl rfl
  have hset : Steady e (e.setBlock ref { b with tracked := false }) :=
    .of_set rfl hb rfl (fun hd => ⟨hd, rfl⟩) fun hd hnone => ⟨hd, hnone⟩
  rcases hpersist with ⟨cause, hpersist, -⟩ | ⟨e₁, hpersist, -, rfl⟩
  · exact hset.trans (steady_persist hpersist)
  · refine (hset.trans (steady_persist hpersist)).trans ?_
    obtain ⟨b₁, hb₁, -⟩ :=
      (quiet_persist hpersist).2 _ (List.getElem?_set_self (List.getElem?_eq_some_iff.1 hb).1)
    have hmodify : e₁.blocks.modify ref ({ · with entries := none }) =
        e₁.blocks.set ref { b₁ with entries := none } := by
      rw [List.modify_eq_set_getElem?, hb₁]
      rfl
    refine .of_set rfl hb₁ hmodify (fun hd => ⟨hd, ?_⟩) fun hd _ => ⟨hd, rfl⟩
    rcases persist_clean hpersist hb₁ with hnone | hclean
    · exact hnone.symm
    · simp [hclean] at hd

theorem steady_evict (page : Page BlockRef) (e : Engine K V) : Steady e (e.evict page) := by
  unfold evict
  split
  · have hunload : Steady e (Act.run (unload page.owner page.key.pageId) e).2 := steady_unload rfl
    exact hunload.trans (.of_blocks rfl rfl)
  · exact .of_blocks rfl rfl

theorem steady_addPage (policy : Nat) (page : Page BlockRef) (e : Engine K V) :
    Steady e (e.addPage policy page) := by
  dsimp only [addPage]
  split
  · exact .of_blocks rfl rfl
  · split
    · refine Steady.trans ?_ (steady_evict _ _)
      exact .of_blocks rfl rfl
    · exact .of_blocks rfl rfl

end Write

/-! ### Steps -/

/-- A listed block may be replaced by one that is in memory. -/
theorem secures_setBlock (hmoored : e.Moored) (hmaps : e'.maps = e.maps)
    (hblocks : e'.blocks = e.blocks.set ref b') (hl : e.Lists m ref b)
    (hb' : b'.entries.isSome = true) : Secures e e' := by
  obtain ⟨hlt, -⟩ := List.getElem?_eq_some_iff.1 hl.blocks_eq
  have hset : e'.blocks[ref]? = some b' := by rw [hblocks, List.getElem?_set_self hlt]
  have hother {r : BlockRef} (hr : ref ≠ r) : e'.blocks[r]? = e.blocks[r]? := by
    rw [hblocks, List.getElem?_set_ne hr]
  refine ⟨fun r c hc hdirty => ?_, fun r ⟨c, hc, hdirty, hnone⟩ => ?_⟩
  · by_cases hr : ref = r
    · subst hr
      obtain rfl := Option.some.inj (hset.symm.trans hc)
      obtain ⟨state, hm, href, -⟩ := hl
      exact iff_of_true hb' ⟨m, b', state, hmaps.symm ▸ hm, href, hset⟩
    · rw [hmoored r c ((hother hr).symm.trans hc) hdirty]
      have hlists (i : Nat) (d : Block K V) : e'.Lists i r d ↔ e.Lists i r d := by
        unfold Lists
        rw [hmaps, hother hr]
      simp only [hlists]
  · by_cases hr : ref = r
    · subst hr
      exact absurd hl (hmoored.not_lists ⟨c, hc, hdirty, hnone⟩)
    · exact ⟨c, (hother hr).trans hc, hdirty, hnone⟩

variable [LE K] [DecidableLE K]

theorem secures_enlist {lastId : Nat} (ht : e.Tidy) (hm : e.maps[m]? = some state)
    (hb : Joins state b lastId) (hmoored : e.Moored) : Secures e (e.enlist m state b lastId) := by
  refine ⟨fun r c hc hdirty => ?_, fun r ⟨c, hc, hdirty, hnone⟩ => ⟨c, ?_, hdirty, hnone⟩⟩
  · rw [blocks_enlist] at hc
    simp only [lists_enlist ht hm hb]
    split at hc
    · rename_i hr
      obtain rfl := Option.some.inj hc
      exact iff_of_true hb.entries ⟨m, _, Or.inr ⟨rfl, hr, rfl⟩⟩
    · rename_i hr
      rw [hmoored r c hc hdirty]
      simp [hr]
  · exact blocks_enlist_of_some hc

variable [Wire K] [Wire V] {x y : Finset BlockRef × Engine K V}

theorem secures_access {es : Entries K V} (hmoored : e.Moored) (hl : e.Lists m ref b)
    (hrun : Act.run (access ref b) e = (.ok es, e')) : Secures e e' := by
  obtain ⟨hquiet, hloaded⟩ := quiet_access hl.blocks_eq hrun
  have hset : e'.blocks = e.blocks.set ref (b.loaded es) := by
    refine List.ext_getElem? fun r => ?_
    by_cases hr : ref = r
    · subst hr
      rw [hloaded, List.getElem?_set_self (List.getElem?_eq_some_iff.1 hl.blocks_eq).1]
    · rw [List.getElem?_set_ne hr, hquiet.others r (Ne.symm hr)]
  exact secures_setBlock hmoored hquiet.maps hset hl rfl

theorem Step.secures (h : Step m x y) (ht : x.2.Tidy) (hmoored : x.2.Moored) : Secures x.2 y.2 := by
  cases h with
  | read hl hrun => exact secures_access hmoored hl hrun
  | unread hl hrun =>
    have hsteady := Steady.of_blocks (quiet_access_error hrun).1.maps (quiet_access_error hrun).2
    exact hsteady.secures hmoored
  | edit hl _ hb => exact secures_setBlock hmoored rfl rfl hl hb.entries
  | list hm hb => exact secures_enlist ht hm hb hmoored
  | hit _ _ => exact (steady_hitPage _ _ _).secures hmoored
  | add _ _ => exact (steady_addPage _ _ _).secures hmoored
  | persist _ hrun => exact (steady_persist hrun).secures hmoored
  | @look p e scans =>
    have hsteady : Steady e { e with scans } := .of_blocks rfl rfl
    exact hsteady.secures hmoored
  | @note p e notice =>
    have hsteady : Steady e (e.notify notice) := .of_blocks rfl rfl
    exact hsteady.secures hmoored

theorem Steps.secures (h : Steps m x y) (ht : x.2.Tidy) (hmoored : x.2.Moored) :
    Secures x.2 y.2 := by
  induction h with
  | refl => exact .refl hmoored
  | tail hsteps hstep ih =>
    exact ih.trans (hstep.secures (Steps.retains hsteps ht).tidy ih.moored)

/-! ### Giving up blocks -/

omit [LE K] [DecidableLE K] [Wire K] [Wire V] in
/-- The blocks that a map gives up leave memory, those that are dirty as well. -/
theorem secures_give_up (ht : e.Tidy) (hm : e.maps[m]? = some state)
    (he : e' = e.clear m ∨ e' = e.drop m) (hmoored : e.Moored) : Secures e e' := by
  obtain ⟨-, -, hlists⟩ := tidy_give_up ht hm he
  obtain ⟨-, -, -, hothers⟩ := confined_give_up hm he
  refine ⟨fun r c hc hdirty => ?_, fun r ⟨c, hc, hdirty, hnone⟩ => ?_⟩
  · simp only [hlists]
    by_cases hr : r ∈ state.directory.refs
    · obtain ⟨b, hb⟩ := ht.exists_lists hm hr
      obtain ⟨released, hc'⟩ := blocks_give_up hm he hr hb.blocks_eq
      obtain rfl := Option.some.inj (hc'.symm.trans hc)
      refine iff_of_false (by simp [Block.forgotten]) ?_
      rintro ⟨i, d, hne, hd⟩
      exact hne (ht.eq_of_lists hb hd).1.symm
    · rw [hmoored r c ((hothers r hr).symm.trans hc) hdirty]
      refine exists_congr fun i => exists_congr fun d => ⟨fun hd => ⟨?_, hd⟩, fun hd => hd.2⟩
      rintro rfl
      obtain ⟨st, hi, hmem, -⟩ := hd
      obtain rfl := Option.some.inj (hm.symm.trans hi)
      exact hr hmem
  · by_cases hr : r ∈ state.directory.refs
    · obtain ⟨released, hc'⟩ := blocks_give_up hm he hr hc
      exact ⟨_, hc', hdirty, rfl⟩
    · exact ⟨c, (hothers r hr).trans hc, hdirty, hnone⟩

omit [Wire K] [Wire V] in
/-- A block that is listed from its description is clean. -/
theorem secures_restoreBlock (ht : e.Tidy) (hbare : e.Bare m) (info : BlockInfo K)
    (hmoored : e.Moored) : Secures e (restoreBlock m e info) := by
  have hrestores := restores_restoreBlock ht hbare info
  cases hm : e.maps[m]? with
  | none =>
    rw [restoreBlock, hm]
    exact .refl hmoored
  | some state =>
    refine ⟨fun r c hc hdirty => ?_, fun r hr => ?_⟩
    · rw [getElem?_restoreBlock hm] at hc
      split at hc
      · obtain rfl := Option.some.inj hc
        simp [Block.ofInfo] at hdirty
      · rename_i hold
        rw [hmoored r c hc hdirty]
        -- the dirty blocks that map `m` lists are none: they would be in memory
        have hnone (d : Block K V) : ¬ e.Lists m r d := fun hd => by
          obtain rfl := Option.some.inj (hd.blocks_eq.symm.trans hc)
          have hsome := hmoored.loaded hd hdirty
          simp [(hbare r d hd).1] at hsome
        refine exists_congr fun i => exists_congr fun d => ?_
        by_cases hi : i = m
        · subst hi
          exact iff_of_false (hnone d) fun hd =>
            hnone d ((lists_of_restoreBlock hm hd).resolve_left fun h => hold h.1)
        · exact (hrestores.lists ht hi).symm
    · obtain ⟨b, hb, hrest⟩ := hr
      exact ⟨b, hrestores.kept r b hb, hrest⟩

omit [Wire K] [Wire V] in
theorem secures_restore (snapshot : Snapshot K) (ht : e.Tidy) (hm : e.maps[m]? = some state)
    (hmoored : e.Moored) : Secures e (e.restore m snapshot) := by
  have hfoldl (infos : List (BlockInfo K)) : ∀ e : Engine K V, e.Tidy → e.Bare m → e.Moored →
      Secures e (infos.foldl (restoreBlock m) e) := by
    induction infos with
    | nil => exact fun e _ _ hmoored => .refl hmoored
    | cons info infos ih =>
      intro e ht hbare hmoored
      have hfirst := secures_restoreBlock ht hbare info hmoored
      have hrestores := restores_restoreBlock ht hbare info
      exact hfirst.trans (ih _ hrestores.tidy hrestores.bare hfirst.moored)
  have hnotify : Steady e (e.notify (.mapRestored snapshot.blocks.length)) := .of_blocks rfl rfl
  have hfirst := hnotify.secures hmoored
  obtain ⟨hlists, ht₁, -, -⟩ := restores_restore snapshot ht hm
  have hclear := secures_give_up ((quiet_notify 0 _ e).toPaging.tidy ht)
    (hm : (e.notify (.mapRestored snapshot.blocks.length)).maps[m]? = some state) (Or.inl rfl)
    hfirst.moored
  have hbare : Bare m ((e.notify (.mapRestored snapshot.blocks.length)).clear m) := fun r b hl =>
    absurd rfl ((hlists m r b).1 hl).1
  exact (hfirst.trans hclear).trans (hfoldl snapshot.blocks _ ht₁ hbare hclear.moored)

/-! ### Calls -/

variable [Sized K] [Sized V] {c : Call K V}

omit [Sized K] [Sized V] in
/-- A call keeps dirty blocks moored or adrift, if a scan that goes on by it comes to listed
blocks. -/
theorem Effect.secures (h : Effect e c e') (ht : e.Tidy) (hmoored : e.Moored)
    (hnext : ∀ n, c = .request (.next n) →
      (e.next n).2 = e ∨ ∃ m, Steps m (∅, e) (∅, (e.next n).2)) :
    Secures e e' := by
  cases h with
  | steps _ hs => exact Steps.secures hs ht hmoored
  | @next n =>
    rcases hnext n rfl with hsame | ⟨m, hs⟩
    · exact hsame.symm ▸ .refl hmoored
    · exact Steps.secures hs ht hmoored
  | giveUp _ hm he => exact secures_give_up ht hm he hmoored
  | boot hm => exact secures_restore _ ht hm hmoored
  | @make sizing policy store c e' _ hstore he =>
    obtain ⟨-, -, -, hlists⟩ := tidy_addMap ht hstore he
    obtain ⟨budget, -, rfl⟩ := addMap_eq_ok he
    refine ⟨fun r b hb hdirty => ?_, fun r hr => hr⟩
    simp only [hlists]
    exact hmoored r b hb hdirty
  | evict => exact (steady_evict _ _).secures hmoored
  | add => exact (steady_addPage _ _ _).secures hmoored
  | hit => exact (steady_hitPage _ _ _).secures hmoored
  | remove => exact (steady_removePage _ _ _).secures hmoored
  | aside haside => exact (Steady.of_blocks haside.maps haside.blocks).secures hmoored

end Engine

end PagedMap
