import Mathlib
import PagedMap.Proofs.Outlived
import PagedMap.Proofs.Passes

/-!
# What is on pages

A block whose entries are not in memory can be read: a dirty block is in memory, and the page of a
clean block holds the entries that the block has.  This holds for the listed blocks of all maps
after each command of a session, and on the way of each request (`Engine.Lasting`), since every pass
keeps it (`Engine.Pass.lasting`).  A pass that changes entries does so in memory, and leaves the
block dirty.

So an eviction in the middle of a request loses nothing either: unless the entries are on the page
of the block, whether they have been for long or were just written, they stay in memory
(`Session.durable_run`).
-/

namespace PagedMap

variable {K V : Type}

namespace Block

variable [LE K] [DecidableLE K] [Sized K] [Sized V]

/-- A block that loses an entry is dirty, and a block without such an entry stays as it is. -/
theorem erase_cases (b : Block K V) (es : Entries K V) (key : K) :
    (b.erase es key).dirty = true ∧ (b.erase es key).entries = some (es.erase key) ∨
      b.erase es key = b := by
  unfold erase
  split
  · exact Or.inl ⟨rfl, rfl⟩
  · exact Or.inr rfl

end Block

namespace Engine

variable [Wire K] [Wire V] [LE K] [DecidableLE K]

/-- Pages are kept for good, and the entries of every listed block are in memory, or on its page if
it is clean. -/
structure Lasting (limit : Option Nat) (e : Engine K V) : Prop where
  roomy : e.Roomy limit
  coherent : ∀ (m : Nat) (ref : BlockRef) (b : Block K V), e.Lists m ref b → e.Coherent b

variable {e e' : Engine K V} {m : Nat} {ref : BlockRef} {b b' : Block K V} {limit : Option Nat}
  {state : MapState K} {k : Scope} {es : Entries K V}

/-! ### Blocks in memory -/

/-- A dirty block with sorted entries in memory is coherent. -/
theorem coherent_of_dirty (hdirty : b.dirty = true) (hes : b.entries = some es)
    (hsorted : es.Sorted) : e.Coherent b where
  sorted := (content_of_some hes).symm ▸ hsorted
  loaded _ := hes ▸ rfl
  onPage hclean := absurd (hdirty.symm.trans hclean) Bool.noConfusion

theorem Coherent.sorted_of_some (h : e.Coherent b) (hes : b.entries = some es) : es.Sorted :=
  content_of_some hes ▸ h.sorted

theorem Coherent.erase [Sized K] [Sized V] (h : e.Coherent b)
    (hes : b.entries = some es) (key : K) : e.Coherent (b.erase es key) := by
  rcases b.erase_cases es key with ⟨hdirty, herased⟩ | hsame
  · exact coherent_of_dirty hdirty herased (h.sorted_of_some hes).erase
  · exact hsame.symm ▸ h

theorem Coherent.insert [Std.IsLinearOrder K] [Sized K] [Sized V] (h : e.Coherent b)
    (hes : b.entries = some es) (key : K) (value : V) : e.Coherent (b.insert es key value) :=
  coherent_of_dirty rfl rfl (h.sorted_of_some hes).insert

theorem Coherent.split? [Sized K] [Sized V] (h : e.Coherent b) (hdirty : b.dirty = true) {id : Nat}
    {upperRef : BlockRef} {lower upper : Block K V}
    (hsplit : b.split? id upperRef = some (lower, upper)) :
    e.Coherent lower ∧ e.Coherent upper := by
  obtain ⟨front, back, total, hcut, a, c, d, f, -, -, -, -, rfl, rfl⟩ := Block.split?_eq_some hsplit
  obtain ⟨es, hes⟩ := Option.isSome_iff_exists.1 (h.loaded hdirty)
  have hsorted := h.sorted_of_some hes
  rw [← Block.held_of_some hes, ← Entries.append_of_cut? hcut, Entries.sorted_append] at hsorted
  exact ⟨coherent_of_dirty hdirty rfl hsorted.1, coherent_of_dirty rfl rfl hsorted.2.1⟩

/-! ### Passes -/

theorem AllHold.lasting [Std.IsLinearOrder K] (h : e.AllHold limit) : e.Lasting limit :=
  ⟨h.roomy, fun _ _ _ hl => (h.of_lists hl).1⟩

omit [Wire K] [Wire V] [LE K] [DecidableLE K] in
theorem lists_of_setBlock {r : BlockRef} {c : Block K V} (hb : e.blocks[ref]? = some b)
    (hc : (e.setBlock ref b').Lists m r c) :
    r = ref ∧ c = b' ∧ e.Lists m ref b ∨ e.Lists m r c := by
  obtain ⟨state, hm, hr, hget⟩ := hc
  have hset : (e.blocks.set ref b')[r]? = some c := hget
  by_cases hne : r = ref
  · subst hne
    rw [List.getElem?_set_self (List.getElem?_eq_some_iff.1 hb).1] at hset
    exact Or.inl ⟨rfl, (Option.some.inj hset).symm, state, hm, hr, hb⟩
  · rw [List.getElem?_set_ne (Ne.symm hne)] at hset
    exact Or.inr ⟨state, hm, hr, hset⟩

/-- A block may be replaced by one that is coherent if it was so itself. -/
theorem Lasting.setBlock (h : e.Lasting limit) (hb : e.blocks[ref]? = some b)
    (hcoh : e.Coherent b → e.Coherent b') : (e.setBlock ref b').Lasting limit := by
  refine ⟨h.roomy.congr rfl rfl (List.suffix_refl _), fun m r c hc => ?_⟩
  suffices hold : e.Coherent c from hold.congr rfl rfl
  rcases lists_of_setBlock hb hc with ⟨-, rfl, hl⟩ | hl
  · exact hcoh (h.coherent m ref b hl)
  · exact h.coherent m r c hl

theorem Lasting.enlist (h : e.Lasting limit) (hm : e.maps[m]? = some state) (hcoh : e.Coherent b)
    (lastId : Nat) : (e.enlist m state b lastId).Lasting limit := by
  refine ⟨h.roomy.congr rfl rfl (List.suffix_refl _), fun i r c hc => ?_⟩
  suffices hold : e.Coherent c from hold.congr rfl rfl
  rcases lists_of_enlist hm hc with ⟨-, rfl⟩ | hl
  · exact hcoh
  · exact h.coherent i r c hl

theorem Lasting.split [Sized K] [Sized V] (h : e.Lasting limit) (hl : e.Lists m ref b)
    (hdirty : b.dirty = true) : (split m ref b e).2.Lasting limit := by
  have hb := hl.blocks_eq
  obtain ⟨hlt, -⟩ := List.getElem?_eq_some_iff.1 hb
  obtain ⟨state, hm, -, -⟩ := id hl
  cases hsplit : b.split? (state.lastId + 1) e.blocks.length with
  | none => simpa [Engine.split, hm, hsplit] using h
  | some parts =>
    obtain ⟨lower, upper⟩ := parts
    obtain ⟨hlower, hupper⟩ := (h.coherent m ref b hl).split? hdirty hsplit
    rw [split_eq hm hlt hsplit]
    have hlisted := h.enlist hm hupper (state.lastId + 1)
    have hset := hlisted.setBlock (blocks_enlist_of_some hb) fun _ => hlower.congr rfl rfl
    exact ⟨hset.roomy.congr rfl rfl (List.suffix_cons _ _),
      fun i r c hc => (hset.coherent i r c hc).congr rfl rfl⟩

variable [Lossless K] [Lossless V]

theorem Keeps.lasting (hk : Keeps limit e e') (hw : e'.Within limit) (h : e.Lasting limit) :
    e'.Lasting limit := by
  refine ⟨hk.roomy hw h.roomy, fun m ref b' hl => ?_⟩
  obtain ⟨state, hm, href, hb'⟩ := hl
  have hlt : ref < e.blocks.length := hk.length ▸ (List.getElem?_eq_some_iff.1 hb').1
  have hb := List.getElem?_eq_getElem hlt
  obtain ⟨b'', hb'', hcoh, -⟩ := hk.blocks hw h.roomy ref _ hb
    (h.coherent m ref _ ⟨state, hk.maps ▸ hm, href, hb⟩)
  exact Option.some.inj (hb'.symm.trans hb'') ▸ hcoh

/-- Paging leaves every listed block the entries that it had. -/
theorem Keeps.content_eq (hk : Keeps limit e e') (hw : e'.Within limit) (h : e.Lasting limit)
    (hl : e.Lists m ref b) : ∃ b', e'.Lists m ref b' ∧ e'.content b' = e.content b := by
  obtain ⟨b', hb', -, hsame⟩ := hk.blocks hw h.roomy ref b hl.blocks_eq (h.coherent m ref b hl)
  obtain ⟨state, hm, href, -⟩ := hl
  exact ⟨b', ⟨state, hk.maps.symm ▸ hm, href, hb'⟩, congrArg Block.held hsame⟩

variable [Std.IsLinearOrder K] [Sized K] [Sized V]

/-- As long as no entries change, a pass moves them in and out of memory at most. -/
theorem Pass.keeps (h : Pass .paging e e') (limit : Option Nat) : Keeps limit e e' := by
  cases h with
  | read hb h => exact (access_spec hb h).1
  | persist h => exact keeps_persist h
  | unload h => exact keeps_unload h
  | record event => exact keeps_record event
  | policy policy p => exact keeps_setPolicy policy p
  | look scans => exact .of_frame (List.suffix_refl _) rfl rfl rfl rfl
  | plan faults => exact keeps_plan faults
  | erase hk => exact absurd rfl hk
  | insert hk => exact Scope.noConfusion hk
  | split hk => exact Scope.noConfusion hk
  | plant hk => exact Scope.noConfusion hk

omit [Wire K] [Wire V] [Lossless K] [Lossless V] [Std.IsLinearOrder K] in
theorem Alters.suffix (h : Alters e e') : e.events <:+ e'.events := by
  cases h with
  | split hl hdirty => exact (extends_split _ _ _ e).events
  | _ => exact List.suffix_refl _

omit [Lossless K] [Lossless V] in
/-- What is done to the entries of a block is done in memory. -/
theorem Alters.lasting (h : Alters e e') (hlasting : e.Lasting limit) : e'.Lasting limit := by
  cases h with
  | erase hb hes key => exact hlasting.setBlock hb fun hcoh => hcoh.erase hes key
  | insert hb hes key value => exact hlasting.setBlock hb fun hcoh => hcoh.insert hes key value
  | split hl hdirty => exact hlasting.split hl hdirty
  | plant hm key value =>
    exact hlasting.enlist hm (coherent_of_dirty rfl rfl (List.pairwise_singleton ..)) _

theorem Pass.suffix (h : Pass k e e') : e.events <:+ e'.events := by
  rcases h.paging_or_alters with hpaging | ⟨-, halters⟩
  · exact (hpaging.keeps none).events
  · exact halters.suffix

theorem Passes.suffix (h : Passes k e e') : e.events <:+ e'.events := by
  induction h with
  | refl => exact List.suffix_refl _
  | tail _ hpass ih => exact ih.trans hpass.suffix

theorem Pass.lasting (h : Pass k e e') (hw : e'.Within limit) (hlasting : e.Lasting limit) :
    e'.Lasting limit := by
  rcases h.paging_or_alters with hpaging | ⟨-, halters⟩
  · exact (hpaging.keeps limit).lasting hw hlasting
  · exact halters.lasting hlasting

theorem Passes.lasting (h : Passes k e e') (hw : e'.Within limit) (hlasting : e.Lasting limit) :
    e'.Lasting limit := by
  induction h with
  | refl => exact hlasting
  | tail _ hpass ih => exact hpass.lasting hw (ih (hw.of_suffix hpass.suffix))

theorem Passes.keeps (h : Passes .paging e e') (limit : Option Nat) : Keeps limit e e' := by
  induction h with
  | refl => exact .refl limit e
  | tail _ hpass ih => exact ih.trans (hpass.keeps limit)

end Engine

namespace Session

variable [Wire K] [Wire V] [LE K] [DecidableLE K] [Sized K] [Sized V]
variable [Std.IsLinearOrder K] [Lossless K] [Lossless V]

variable {limit : Option Nat} {m : Nat} {ref : BlockRef} {b : Block K V} {k : Scope}
  {policies : List (Policy BlockRef)} {store : Store K V} {volume : Volume}
  {cs : List (Command K V)} {s : Session K V} {e : Engine K V}

/-- After any commands, and anywhere on the way of a request (`Engine.passes_serve`), whatever page
stores refused: a dirty block of a map is in memory, and the page of a clean one holds, in the order
of the keys, the entries that the block has.  If nothing but reads, writes, evictions and the like
follows, the block still has its entries, and unless they are in memory, they are on the page that
the block has by then. -/
theorem durable_run (hready : store.Ready limit volume)
    (hrun : (start policies store volume).run cs = s) (hway : Engine.Passes k s.engine e)
    (hw : e.Within limit) (hl : e.Lists m ref b) :
    (b.dirty = true → ∃ es, b.entries = some es) ∧
    (b.dirty = false →
      (e.content b).Sorted ∧ e.readPage b.home.store b.page = .ok (e.content b)) ∧
    ∀ e', Engine.Passes .paging e e' → e'.Within limit → ∃ b', e'.Lists m ref b' ∧
      e'.content b' = e.content b ∧
      (b'.entries = none → e'.readPage b'.home.store b'.page = .ok (e.content b)) := by
  subst hrun
  have hstart := (goes_run (documented_start hready) (hw.of_suffix hway.suffix)).documented.engine
  have hlasting := hway.lasting hw hstart.lasting
  have hcoh := hlasting.coherent m ref b hl
  refine ⟨fun hdirty => Option.isSome_iff_exists.1 (hcoh.loaded hdirty),
    fun hclean => ⟨hcoh.sorted, hcoh.onPage hclean⟩, fun e' hpaging hw' => ?_⟩
  have hkeeps := hpaging.keeps limit
  obtain ⟨b', hl', hcontent⟩ := hkeeps.content_eq hw' hlasting hl
  have hcoh' := (hkeeps.lasting hw' hlasting).coherent m ref b' hl'
  refine ⟨b', hl', hcontent, fun hunloaded => hcontent ▸ hcoh'.onPage ?_⟩
  exact Bool.eq_false_iff.2 fun hdirty => by simpa [hunloaded] using hcoh'.loaded hdirty

/-- The page store refuses to take the changed block of the keys 6 and 8 when it is to leave memory
in the middle of a put.  It stays, and leaves memory later, when the page store takes it. -/
theorem durable_run_refused :
    let sizing : Sizing := { maxBlockSize := 12, entryOverhead := 2, blockOverhead := 0 }
    let cs : List (Command (Shape.uint .w8).Datum (Shape.uint .w8).Datum) :=
      [.request (.make sizing 0), .request (.put 0 2#8 0x12#8), .request (.put 0 4#8 0x14#8),
        .request (.put 0 6#8 0x16#8), .request (.put 0 8#8 0x18#8), .request (.get 0 2#8),
        .request (.plan { creates := .first 1 }), .request (.put 0 8#8 0x28#8)]
    let put : Request (Shape.uint .w8).Datum (Shape.uint .w8).Datum := .put 0 4#8 0x24#8
    let get : Request (Shape.uint .w8).Datum (Shape.uint .w8).Datum := .get 0 6#8
    let get' : Request (Shape.uint .w8).Datum (Shape.uint .w8).Datum := .get 0 4#8
    let s := (start [.clock (.empty 1)] .inMemory {}).run cs
    let refused := (s.engine.serve put).2
    let evicted := ((refused.serve get).2.serve get').2
    let es : Entries (Shape.uint .w8).Datum (Shape.uint .w8).Datum := [(6#8, 0x16#8), (8#8, 0x28#8)]
    ∃ b b', refused.Lists 0 1 b ∧ b.dirty = true ∧ b.entries = some es ∧ evicted.Lists 0 1 b' ∧
      b'.entries = none ∧ evicted.readPage b'.home.store b'.page = .ok es := by
  intro sizing cs put get get' s refused evicted es
  have hstays : ∃ b ∈ refused.blocks[1]?, b.dirty = true ∧ b.entries = some es := by decide +kernel
  have hlisted : ∃ state ∈ refused.maps[0]?, 1 ∈ state.directory.refs := by decide +kernel
  have hleaves : ∀ b ∈ evicted.blocks[1]?, b.entries = none := by decide +kernel
  have hready : (Store.inMemory (K := (Shape.uint .w8).Datum) (V := (Shape.uint .w8).Datum)).Ready
      none {} := trivial
  have hrun : (start [.clock (.empty 1)] .inMemory {}).run cs = s := rfl
  have hput : (s.engine.serve put).2 = refused := rfl
  have hgets : ((refused.serve get).2.serve get').2 = evicted := rfl
  clear_value s refused evicted
  obtain ⟨b, hb, hdirty, hentries⟩ := hstays
  obtain ⟨state, hstate, href⟩ := hlisted
  have hl : refused.Lists 0 1 b := ⟨state, hstate, href, hb⟩
  have hway : Engine.Passes .put s.engine refused :=
    hput ▸ Engine.passes_serve (q := put) rfl s.engine
  have hpaging : Engine.Passes .paging refused evicted :=
    hgets ▸ (Engine.passes_serve (q := get) rfl refused).trans
      (Engine.passes_serve (q := get') rfl _)
  have hw : refused.Within none := Engine.within_none _
  have hw' : evicted.Within none := Engine.within_none _
  obtain ⟨-, -, hkept⟩ := durable_run hready hrun hway hw hl
  obtain ⟨b', hl', -, hpage⟩ := hkept evicted hpaging hw'
  have hnone : b'.entries = none := hleaves b' hl'.blocks_eq
  exact ⟨b, b', hl, hdirty, hentries, hl', hnone, Engine.content_of_some hentries ▸ hpage hnone⟩

end Session

end PagedMap
