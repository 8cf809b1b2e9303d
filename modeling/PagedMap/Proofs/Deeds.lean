import Mathlib
import PagedMap.Proofs.Moves

/-!
# What moves make of blocks

A move changes the entries of a block and leaves it dirty, or it has a dirty block written, which is
clean afterwards if this succeeds, or it does nothing to the entries but move them in or out of
memory (`Engine.Becomes`).  So a block that is dirty was changed since it was written for the last
time, and if it is in memory, its entries are those that the last change left (`Engine.Ledger`).
Blocks are written only then (`Warranted`).

This needs that no dirty block is read from its page, which is not up to date.  A dirty block leaves
memory only if its map gives it up, and a request that lets such a block stay out of memory to the
end has not read it on the way (`Engine.Moves.adrift_of_adrift`).
-/

namespace PagedMap

variable {K V : Type}

/-- The block that something is done with. -/
def Deed.ref : Deed K V → BlockRef
  | change ref _ | write ref _ _ => ref

/-- The entries that the last change left in a block, if the block was not written since. -/
def unsaved (ref : BlockRef) : List (Deed K V) → Option (Entries K V)
  | [] => none
  | .change r entries :: past => if r = ref then some entries else unsaved ref past
  | .write r _ done :: past => if r = ref ∧ done = true then none else unsaved ref past

/-- Whenever a page store was asked to write a block, the block had been changed since it was
written for the last time, and what was to be written are the entries that the last change left, in
the order of their keys. -/
def Warranted [LE K] : List (Deed K V) → Prop
  | [] => True
  | .change _ _ :: past => Warranted past
  | .write ref entries _ :: past =>
    unsaved ref past = some entries ∧ entries.Sorted ∧ Warranted past

/-- Nothing of the block is in memory that is not on its page. -/
def Block.WrittenBack (b : Block K V) : Prop := b.dirty = true → b.entries = none

/-- The block is still what it was, but for where its entries are, and need not be written. -/
structure Block.Spared (b b' : Block K V) : Prop where
  writtenBack : b'.WrittenBack
  dirty : b'.dirty = b.dirty
  home : b'.home = b.home
  info : b'.info = b.info

theorem Block.Spared.refl {b : Block K V} (h : b.WrittenBack) : b.Spared b := ⟨h, rfl, rfl, rfl⟩

theorem Block.Spared.trans {b b' b'' : Block K V} (h : b.Spared b') (h' : b'.Spared b'') :
    b.Spared b'' :=
  ⟨h'.writtenBack, h'.dirty.trans h.dirty, h'.home.trans h.home, h'.info.trans h.info⟩

theorem unsaved_append_of_ref_ne {ref : BlockRef} {ds past : List (Deed K V)}
    (h : ∀ d ∈ ds, d.ref ≠ ref) : unsaved ref (ds ++ past) = unsaved ref past := by
  induction ds with
  | nil => rfl
  | cons d ds ih =>
    rw [List.forall_mem_cons] at h
    cases d with
    | change r entries => exact (if_neg h.1).trans (ih h.2)
    | write r entries done => exact (if_neg fun hr => h.1 hr.1).trans (ih h.2)

namespace Engine

variable {e e' e'' : Engine K V} {ref r : BlockRef} {b b' : Block K V} {es : Entries K V}
  {ds ds' past : List (Deed K V)}

/-! ### Orders in the records -/

theorem writes_eq (added : List (Event K V)) (h : e'.events = added ++ e.events) :
    writes ref e e' =
      (added.filterMap Event.order?).map fun order => .write ref order.1 order.2 := by
  simp [writes, h]

/-- What is put down to a block is what page stores were asked to write. -/
theorem orders_writes (h : e.events <:+ e'.events) :
    e'.orders = (writes ref e e').filterMap Deed.order? ++ e.orders := by
  obtain ⟨added, hadded⟩ := h
  rw [writes_eq added hadded.symm, orders, ← hadded, List.filterMap_append, List.filterMap_map]
  congr 1
  exact (List.filterMap_some).symm

theorem ref_of_mem_writes {d : Deed K V} (h : d ∈ writes ref e e') : d.ref = ref := by
  obtain ⟨order, -, rfl⟩ := List.mem_map.1 h
  rfl

theorem writes_notify (notice : Notice) (h : e.events <:+ e'.events)
    (h' : e''.events = .noticed notice :: e'.events) : writes ref e e'' = writes ref e e' := by
  obtain ⟨added, hadded⟩ := h
  have hadded' : e''.events = (.noticed notice :: added) ++ e.events := by
    rw [h', ← hadded, List.cons_append]
  rw [writes_eq _ hadded', writes_eq added hadded.symm]
  rfl

/-! ### Writing -/

section Write

variable [Wire K] [Wire V]

theorem events_createPage {store : Nat} {r : Except StoreError Nat}
    (h : e.createPage store es = (r, e')) :
    e'.events = e.events ∧ r.isOk = false ∨ e'.events = .pageCreated store es r :: e.events := by
  unfold createPage at h
  split at h
  · obtain ⟨rfl, rfl⟩ := Prod.mk.inj h
    exact Or.inl ⟨rfl, rfl⟩
  · obtain ⟨rfl, rfl⟩ := Prod.mk.inj h
    exact Or.inr rfl

/-- Writing a block asks for a page with its entries if they are in memory and the block is dirty,
and else for none.  If this succeeds, the block is clean. -/
theorem persist_writes {r : Except MapError Unit} (h : Act.run (persist ref) e = (r, e'))
    (hb : e.blocks[ref]? = some b) :
    (writes ref e e' = [] ∧ e'.blocks = e.blocks ∧
      (r.isOk = true → b.entries = none ∨ b.dirty = false)) ∨
    ∃ es page done, b.entries = some es ∧ b.dirty = true ∧ writes ref e e' = [.write ref es done] ∧
      e'.blocks = e.blocks.set ref { b with page, dirty := !done } ∧ r.isOk = done := by
  rcases persist_cases h with ⟨-, rfl, hclean⟩ | ⟨b', es, hb', hes, hdirty, hcreate⟩
  · exact Or.inl ⟨writes_eq [] rfl, rfl, fun _ => hclean b hb⟩
  obtain rfl := Option.some.inj (hb.symm.trans hb')
  rcases hcreate with ⟨cause, hcreate, rfl⟩ | ⟨page, e₁, hcreate, rfl, rfl⟩
  · have hblocks := blocks_createPage hcreate
    rcases events_createPage hcreate with ⟨hevents, -⟩ | hevents
    · exact Or.inl ⟨writes_eq [] hevents, hblocks,
        fun hok => by simp [Except.isOk, Except.toBool] at hok⟩
    · refine Or.inr ⟨es, b.page, false, hes, hdirty, writes_eq [_] hevents, ?_, rfl⟩
      have hsame : { b with page := b.page, dirty := !false } = b := by
        cases b
        simp_all
      rw [hblocks, hsame]
      exact congrArg blocks (setBlock_self hb).symm
  · rcases events_createPage hcreate with ⟨-, herror⟩ | hevents
    · simp [Except.isOk, Except.toBool] at herror
    · refine Or.inr ⟨es, page, true, hes, hdirty, ?_, ?_, rfl⟩
      · rw [writes_notify _ ⟨[_], hevents.symm⟩ rfl]
        exact writes_eq [_] hevents
      · rw [← blocks_createPage hcreate]
        rfl

end Write

/-! ### What becomes of a block -/

/-- What moves that do these deeds make of a block; there may have been none before. -/
inductive Becomes [LE K] (k : Edit K V) (ref : BlockRef) (ds : List (Deed K V)) :
    Option (Block K V) → Block K V → Prop
  /-- Nothing is done with the entries of the block but moving them, and if they leave memory, then
  the block was clean. -/
  | rest {b b' : Block K V} (hds : ∀ d ∈ ds, d.ref ≠ ref) (hdirty : b'.dirty = b.dirty)
      (hhome : b'.home = b.home) (hinfo : b'.info = b.info)
      (hentries : b'.entries = b.entries ∨ b'.entries = none ∧ b.dirty = false ∨
        b.entries = none ∧ ∃ es, b'.entries = some es ∧ es.Sorted) : Becomes k ref ds (some b) b'
  /-- A page store is asked to write the block. -/
  | write {b b' : Block K V} {es : Entries K V} {done : Bool} (hds : ds = [.write ref es done])
      (hdirty : b.dirty = true) (hes : b.entries = some es) (hdirty' : b'.dirty = !done)
      (hhome : b'.home = b.home)
      (hentries : b'.entries = some es ∨ b'.entries = none ∧ done = true) :
      Becomes k ref ds (some b) b'
  /-- The entries of the block are changed, or it is new. -/
  | change {old : Option (Block K V)} {b' : Block K V} {es : Entries K V} (hk : k ≠ .keep)
      (hds : ∀ past, unsaved ref (ds ++ past) = some es) (hdirty : b'.dirty = true)
      (hes : b'.entries = some es) (hsorted : es.Sorted) : Becomes k ref ds old b'

/-- All entries in memory are in the order of their keys. -/
def Ordered [LE K] (e : Engine K V) : Prop :=
  ∀ (ref : BlockRef) (b : Block K V) (es : Entries K V), e.blocks[ref]? = some b →
    b.entries = some es → es.Sorted

variable [LE K] [DecidableLE K] {k : Edit K V}

omit [DecidableLE K] in
theorem Ordered.held (h : e.Ordered) (hb : e.blocks[ref]? = some b) : Entries.Sorted b.held := by
  cases hes : b.entries with
  | none =>
    rw [Block.held, hes]
    exact List.Pairwise.nil
  | some es =>
    rw [Block.held, hes]
    exact h ref b es hb hes

omit [DecidableLE K] in
theorem Becomes.of_eq (hds : ∀ d ∈ ds, d.ref ≠ r) (h : e'.blocks[r]? = e.blocks[r]?)
    (hb' : e'.blocks[r]? = some b') : Becomes k r ds e.blocks[r]? b' := by
  rw [← h, hb']
  exact .rest hds rfl rfl rfl (Or.inl rfl)

omit [DecidableLE K] in
/-- What becomes of the blocks if one of them is replaced. -/
theorem Becomes.of_set (hblocks : e'.blocks = e.blocks.set ref b)
    (hbecomes : Becomes k ref ds e.blocks[ref]? b)
    (hds : ∀ d ∈ ds, d.ref = ref) (hb' : e'.blocks[r]? = some b') :
    Becomes k r ds e.blocks[r]? b' := by
  by_cases hr : ref = r
  · subst hr
    rw [hblocks, List.getElem?_set_self'] at hb'
    obtain ⟨-, -, rfl⟩ := Option.map_eq_some_iff.1 hb'
    exact hbecomes
  · refine .of_eq (fun d hd => hds d hd ▸ hr) ?_ hb'
    rw [hblocks, List.getElem?_set_ne hr]

variable [Wire K] [Wire V]

omit [DecidableLE K] in
theorem becomes_persist {x : Except MapError Unit} (h : Act.run (persist ref) e = (x, e'))
    (hb' : e'.blocks[r]? = some b') : Becomes k r (writes ref e e') e.blocks[r]? b' := by
  cases hb : e.blocks[ref]? with
  | none =>
    rcases persist_cases h with ⟨-, rfl, -⟩ | ⟨b, es, hsome, -⟩
    · rw [writes_eq [] rfl]
      exact .of_eq (by simp) rfl hb'
    · simp [hb] at hsome
  | some b =>
    rcases persist_writes h hb with ⟨hnone, hblocks, -⟩ |
      ⟨es, page, done, hes, hdirty, hds, hblocks, -⟩
    · rw [hnone]
      exact .of_eq (by simp) (by rw [hblocks]) hb'
    · rw [hds]
      refine .of_set hblocks ?_ (by simp [Deed.ref]) hb'
      rw [hb]
      exact .write rfl hdirty hes rfl rfl (Or.inl hes)

omit [DecidableLE K] in
theorem becomes_unload {page : Nat} {x : Except MapError Bool}
    (h : Act.run (unload ref page) e = (x, e')) (hb' : e'.blocks[r]? = some b') :
    Becomes k r (writes ref e e') e.blocks[r]? b' := by
  rcases unload_cases h with ⟨rfl, -⟩ | ⟨b, es, hb, hes, hpersist⟩
  · rw [writes_eq [] rfl]
    exact .of_eq (by simp) rfl hb'
  obtain ⟨hlt, -⟩ := List.getElem?_eq_some_iff.1 hb
  set e₀ := e.setBlock ref { b with tracked := false } with he₀
  have hb₀ : e₀.blocks[ref]? = some { b with tracked := false } := List.getElem?_set_self hlt
  have hset (c : Block K V) : e₀.blocks.set ref c = e.blocks.set ref c := List.set_set ..
  have hdeeds (e : Engine K V) : ∀ d ∈ writes ref e₀ e, d.ref = ref :=
    fun d hd => ref_of_mem_writes hd
  have hwrites (e' : Engine K V) : writes ref e e' = writes ref e₀ e' := rfl
  rcases hpersist with ⟨cause, hpersist, -⟩ | ⟨e₁, hpersist, -, rfl⟩
  · -- the block stays in memory
    rcases persist_writes hpersist hb₀ with ⟨hnone, hblocks, -⟩ |
      ⟨es', page', done, hes', hdirty, hds, hblocks, hr⟩
    · refine .of_set (b := { b with tracked := false }) hblocks ?_ (hdeeds e') hb'
      rw [hwrites, hnone, hb]
      exact .rest (by simp) rfl rfl rfl (Or.inl rfl)
    · refine .of_set (hblocks.trans (hset _)) ?_ (hdeeds e') hb'
      rw [hwrites, hds, hb]
      exact .write rfl hdirty hes' rfl rfl (Or.inl hes')
  · have hsuffix : e.events <:+ e₁.events := by
      have hextends := (records_persist ref e₀).events
      rwa [hpersist] at hextends
    rw [writes_notify _ hsuffix rfl, hwrites]
    have hforget {c : Block K V} (hblocks : e₁.blocks = e.blocks.set ref c) :
        e₁.blocks.modify ref ({ · with entries := none }) =
          e.blocks.set ref { c with entries := none } := by
      rw [hblocks, List.modify_eq_set_getElem?, List.getElem?_set_self hlt]
      exact List.set_set ..
    rcases persist_writes hpersist hb₀ with ⟨hnone, hblocks, hclean⟩ |
      ⟨es', page', done, hes', hdirty, hds, hblocks, hdone⟩
    · refine .of_set (hforget hblocks) ?_ (hdeeds e₁) hb'
      rw [hnone, hb]
      refine .rest (by simp) rfl rfl rfl (Or.inr (Or.inl ⟨rfl, ?_⟩))
      exact (hclean rfl).resolve_left fun hnone => by simp [hes] at hnone
    · obtain rfl : done = true := hdone.symm
      refine .of_set (hforget (hblocks.trans (hset _))) ?_ (hdeeds e₁) hb'
      rw [hds, hb]
      exact .write rfl hdirty hes' rfl rfl (Or.inr ⟨rfl, rfl⟩)

theorem becomes_access {x : Except MapError (Entries K V)} [Std.IsLinearOrder K]
    (hb : e.blocks[ref]? = some b) (h : Act.run (access ref b) e = (x, e'))
    (hb' : e'.blocks[r]? = some b') : Becomes k r [] e.blocks[r]? b' := by
  rcases x with cause | es
  · exact .of_eq (by simp) (by rw [(quiet_access_error h).2]) hb'
  obtain ⟨hquiet, hloaded⟩ := quiet_access hb h
  by_cases hr : r = ref
  · subst hr
    obtain rfl := Option.some.inj (hloaded.symm.trans hb')
    rw [hb]
    refine .rest (by simp) rfl rfl rfl ?_
    have hcontent := access_eq_ok h
    cases hes : b.entries with
    | some es' =>
      rw [content_of_some hes] at hcontent
      exact Or.inl (congrArg some hcontent)
    | none =>
      refine Or.inr (Or.inr ⟨rfl, es, rfl, ?_⟩)
      rw [hcontent, content_of_none hes, stored]
      split
      · exact Entries.sorted_ofList _
      · exact List.Pairwise.nil
  · exact .of_eq (by simp) (hquiet.others r hr) hb'

theorem orders_access {x : Except MapError (Entries K V)} (h : Act.run (access ref b) e = (x, e')) :
    e'.orders = e.orders := by
  have horders {y : Except StoreError (List (K × V))} {e₁ : Engine K V}
      (hload : e.loadPage b.home.store b.page = (y, e₁)) : e₁.orders = e.orders := by
    rcases events_loadPage hload with hevents | hevents <;> rw [orders, hevents] <;> rfl
  rcases access_cases h with ⟨es, -, -, rfl⟩ | ⟨-, ⟨c, hload, -⟩ | ⟨xs, e₁, hload, -, rfl⟩⟩
  · rfl
  · exact horders hload
  · exact (horders hload : _)

variable [Sized K] [Sized V] [Std.IsLinearOrder K]

/-- What a move makes of a block. -/
theorem Move.becomes (h : Move k e ds e') (hordered : e.Ordered) (hb' : e'.blocks[r]? = some b') :
    Becomes k r ds e.blocks[r]? b' := by
  cases h with
  | read hb h => exact becomes_access hb h hb'
  | persist h => exact becomes_persist h hb'
  | unload h => exact becomes_unload h hb'
  | record event _ => exact .of_eq (by simp) rfl hb'
  | policy policy p => exact .of_eq (by simp) rfl hb'
  | look scans => exact .of_eq (by simp) rfl hb'
  | plan faults => exact .of_eq (by simp) rfl hb'
  | @erase ref b es key hk hb hes hfound =>
    refine .of_set rfl ?_ (by simp [Deed.ref]) hb'
    obtain ⟨value, hvalue⟩ := Option.isSome_iff_exists.1 hfound
    have herase :
        (b.erase es key).dirty = true ∧ (b.erase es key).entries = some (Entries.erase es key) := by
      rw [Block.erase, hvalue]
      exact ⟨rfl, rfl⟩
    exact .change (by simp [hk]) (fun past => if_pos rfl) herase.1 herase.2
      (hordered _ _ _ hb hes).erase
  | @insert ref b es key value hk hb hes =>
    refine .of_set rfl ?_ (by simp [Deed.ref]) hb'
    exact .change (by simp [hk]) (fun past => if_pos rfl) rfl rfl (hordered _ _ _ hb hes).insert
  | @split m ref b lower upper state key value hk hl hdirty hm hsplit =>
    have hb := hl.blocks_eq
    obtain ⟨hlt, -⟩ := List.getElem?_eq_some_iff.1 hb
    have hsorted : (lower.held ++ upper.held).Sorted := by
      rw [Block.held_append_held hsplit]
      exact hordered.held hb
    rw [Entries.sorted_append] at hsorted
    obtain ⟨_, _, _, -, _, _, _, _, -, -, -, -, hlower, hupper⟩ := Block.split?_eq_some hsplit
    rw [split_eq hm hlt hsplit] at hb'
    have hblocks : ((e.blocks ++ [upper]).set ref lower)[r]? = some b' := hb'
    -- the lower part stands where the block stood, and the upper part is new
    by_cases hr : r = ref
    · subst hr
      rw [List.getElem?_set_self (by simp; omega)] at hblocks
      obtain rfl := Option.some.inj hblocks
      refine .change (by simp [hk]) (fun past => ?_) (hlower ▸ hdirty) (hlower ▸ rfl) hsorted.1
      simp [unsaved, hlt.ne']
    rw [List.getElem?_set_ne (Ne.symm hr), getElem?_append_singleton] at hblocks
    split at hblocks
    · rename_i hnew
      obtain rfl := Option.some.inj hblocks
      exact .change (by simp [hk]) (fun past => if_pos hnew.symm) (hupper ▸ rfl)
        (hupper ▸ rfl) hsorted.2.1
    · rename_i hnew
      rw [hblocks]
      refine .rest ?_ rfl rfl rfl (Or.inl rfl)
      simpa [Deed.ref, eq_comm, hr] using hnew
  | @plant m state key value hk hm =>
    have happend : (e.blocks ++ [_])[r]? = some b' := hb'
    rw [getElem?_append_singleton] at happend
    split at happend
    · rename_i hr
      obtain rfl := Option.some.inj happend
      subst hr
      exact .change (by simp [hk]) (fun past => if_pos rfl) rfl rfl (List.pairwise_singleton ..)
    · rename_i hr
      rw [← happend] at hb'
      refine .of_eq ?_ hb' (hb'.trans happend)
      simpa [Deed.ref, eq_comm] using hr

/-! ### What moves keep -/

theorem Move.ordered (h : Move k e ds e') (hordered : e.Ordered) : e'.Ordered := by
  intro r b' es' hb' hes'
  generalize hold : e.blocks[r]? = old at *
  cases hold ▸ h.becomes hordered hb' with
  | rest hds hdirty hhome hinfo hentries =>
    rcases hentries with hsame | ⟨hnone, -⟩ | ⟨-, es, hes, hsorted⟩
    · exact hordered r _ es' hold (hsame.symm.trans hes')
    · simp [hnone] at hes'
    · exact Option.some.inj (hes.symm.trans hes') ▸ hsorted
  | write hds hdirty hes hdirty' hhome hentries =>
    rcases hentries with hsame | ⟨hnone, -⟩
    · exact hordered r _ es' hold (hes.trans (hsame.symm.trans hes'))
    · simp [hnone] at hes'
  | change hk hds hdirty hes hsorted => exact Option.some.inj (hes.symm.trans hes') ▸ hsorted

omit [Std.IsLinearOrder K] in
theorem Move.length_le (h : Move k e ds e') : e.blocks.length ≤ e'.blocks.length := by
  cases h with
  | read hb h => exact (paging_access hb h).length.ge
  | persist h => exact (quiet_persist h).1.length.ge
  | unload h => exact (quiet_unload h).length.ge
  | record event _ => exact Nat.le_refl _
  | policy policy p => exact Nat.le_refl _
  | look scans => exact Nat.le_refl _
  | plan faults => exact Nat.le_refl _
  | erase => exact List.length_set.ge
  | insert => exact List.length_set.ge
  | split hk hl hdirty hm hsplit =>
    rw [split_eq hm (List.getElem?_eq_some_iff.1 hl.blocks_eq).1 hsplit]
    simp [Engine.enlist, setMap, addBlock, setBlock, notify, Engine.record]
  | plant hk hm => simp [enlist, setMap, addBlock]

omit [Std.IsLinearOrder K] in
/-- A move that changes no entries moves blocks in and out of memory at most. -/
theorem Move.paging (h : Move .keep e ds e') : Paging e e' := by
  cases h with
  | read hb h => exact paging_access hb h
  | persist h => exact (quiet_persist h).1.toPaging
  | unload h => exact (quiet_unload h).toPaging
  | record event _ => exact .of_blocks rfl rfl rfl
  | policy policy p => exact .of_blocks rfl rfl rfl
  | look scans => exact .of_blocks rfl rfl rfl
  | plan faults =>
    refine .of_blocks rfl ?_ rfl
    simp [Engine.plan]
  | erase hk | insert hk | split hk | plant hk => simp at hk

omit [Std.IsLinearOrder K] in
/-- The orders that are recorded are the deeds. -/
theorem Move.orders (h : Move k e ds e') : e'.orders = ds.filterMap Deed.order? ++ e.orders := by
  cases h with
  | read hb h => exact orders_access h
  | @persist ref x e' h =>
    have hextends := (records_persist ref e).events
    rw [h] at hextends
    exact orders_writes hextends
  | @unload ref page x e' h =>
    have hextends := (records_unload ref page e).events
    rw [h] at hextends
    exact orders_writes hextends
  | record event hevent => simp [Engine.orders, Engine.record, hevent]
  | policy policy p => rfl
  | look scans => rfl
  | plan faults => rfl
  | erase => rfl
  | insert => rfl
  | split hk hl hdirty hm hsplit =>
    rw [split_eq hm (List.getElem?_eq_some_iff.1 hl.blocks_eq).1 hsplit]
    rfl
  | plant hk hm => rfl

omit [DecidableLE K] [Wire K] [Wire V] [Sized K] [Sized V] [Std.IsLinearOrder K] in
/-- What is put down to a block are no orders, or one to write the block, which is dirty and in
memory. -/
theorem writes_cases (hex : e' = e ∨ ∃ b, e.blocks[ref]? = some b)
    (hlength : e'.blocks.length = e.blocks.length)
    (hbecomes : ∀ b', e'.blocks[ref]? = some b' →
      Becomes .keep ref (writes ref e e') e.blocks[ref]? b') :
    writes ref e e' = [] ∨ ∃ b es done, writes ref e e' = [.write ref es done] ∧
      e.blocks[ref]? = some b ∧ b.dirty = true ∧ b.entries = some es := by
  rcases hex with rfl | ⟨b, hb⟩
  · exact Or.inl (writes_eq [] rfl)
  obtain ⟨hlt, -⟩ := List.getElem?_eq_some_iff.1 hb
  have hb' := List.getElem?_eq_getElem (hlength ▸ hlt)
  rw [hb] at hbecomes
  cases hbecomes _ hb' with
  | rest hds =>
    refine Or.inl (List.eq_nil_iff_forall_not_mem.2 fun d hd => hds d hd (ref_of_mem_writes hd))
  | write hds hdirty hes => exact Or.inr ⟨b, _, _, hds, hb, hdirty, hes⟩
  | change hk => exact absurd rfl hk

omit [Std.IsLinearOrder K] in
/-- By a move one block at most is ordered to be written, which is dirty and in memory. -/
theorem Move.write_cases (h : Move k e ds e') : (∀ d ∈ ds, d.order? = none) ∨
    ∃ ref b es done, ds = [.write ref es done] ∧ e.blocks[ref]? = some b ∧ b.dirty = true ∧
      b.entries = some es := by
  cases h with
  | @persist ref x e' h =>
    have hex : e' = e ∨ ∃ b, e.blocks[ref]? = some b :=
      (persist_cases h).imp (·.2.1) fun ⟨b, _, hb, _⟩ => ⟨b, hb⟩
    refine (writes_cases hex (quiet_persist h).1.length fun b' => becomes_persist h).imp
      (fun hnone => ?_) fun hwrite => ⟨ref, hwrite⟩
    simp [hnone]
  | @unload ref page x e' h =>
    have hex : e' = e ∨ ∃ b, e.blocks[ref]? = some b :=
      (unload_cases h).imp (·.1) fun ⟨b, _, hb, _⟩ => ⟨b, hb⟩
    refine (writes_cases hex (quiet_unload h).length fun b' => becomes_unload h).imp
      (fun hnone => ?_) fun hwrite => ⟨ref, hwrite⟩
    simp [hnone]
  | read | record | policy | look | plan => exact Or.inl (by simp)
  | erase | insert | split | plant => exact Or.inl (by simp [Deed.order?])

omit [Std.IsLinearOrder K] in
theorem Moves.paging (h : Moves .keep e ds e') : Paging e e' := by
  induction h with
  | refl e => exact .refl e
  | head hmove _ ih => exact hmove.paging.trans ih

omit [Std.IsLinearOrder K] in
theorem Moves.orders (h : Moves k e ds e') : e'.orders = ds.filterMap Deed.order? ++ e.orders := by
  induction h with
  | refl e => rfl
  | head hmove _ ih => rw [ih, hmove.orders, List.filterMap_append, List.append_assoc]

/-! ### Dirty blocks out of memory -/

/-- The block is dirty and out of memory, so that its entries are lost. -/
def Adrift (e : Engine K V) (ref : BlockRef) : Prop :=
  ∃ b, e.blocks[ref]? = some b ∧ b.dirty = true ∧ b.entries = none

/-- A move makes no block adrift, and does nothing with one that is so afterwards. -/
theorem Move.adrift_of_adrift (h : Move k e ds e') (hordered : e.Ordered) (hr : e'.Adrift r) :
    e.Adrift r ∧ ∀ d ∈ ds, d.ref ≠ r := by
  obtain ⟨b', hb', hdirty', hnone'⟩ := hr
  have hbecomes := h.becomes hordered hb'
  cases hb : e.blocks[r]? with
  | none =>
    rw [hb] at hbecomes
    cases hbecomes with
    | change hk hds hdirty hes => simp [hes] at hnone'
  | some b =>
    rw [hb] at hbecomes
    cases hbecomes with
    | rest hds hdirty hhome hinfo hentries =>
      refine ⟨⟨b, hb, hdirty.symm.trans hdirty', ?_⟩, hds⟩
      rcases hentries with hsame | ⟨-, hclean⟩ | ⟨hnone, -⟩
      · exact hsame.symm.trans hnone'
      · simp [hdirty, hclean] at hdirty'
      · exact hnone
    | write hds hdirty hes hdirty₁ hhome hentries =>
      rcases hentries with hsame | ⟨-, rfl⟩
      · simp [hsame] at hnone'
      · simp [hdirty₁] at hdirty'
    | change hk hds hdirty hes => simp [hes] at hnone'

/-- Moves that end with a block adrift found it so and did nothing with it. -/
theorem Moves.adrift_of_adrift (h : Moves k e ds e') (hordered : e.Ordered) (hr : e'.Adrift r) :
    e.Adrift r ∧ ∀ d ∈ ds, d.ref ≠ r := by
  induction h with
  | refl e => exact ⟨hr, by simp⟩
  | head hmove _ ih =>
    obtain ⟨hfirst, hds⟩ := ih (hmove.ordered hordered) hr
    obtain ⟨hstart, hds'⟩ := hmove.adrift_of_adrift hordered hfirst
    refine ⟨hstart, fun d hd => ?_⟩
    exact (List.mem_append.1 hd).elim (hds d) (hds' d)

/-! ### What was done and what is to be written -/

/-- After these deeds, the latest first, every block in memory that is dirty has the entries that
the last change left in it, and it was not written since. -/
structure Ledger (past : List (Deed K V)) (e : Engine K V) : Prop where
  ordered : e.Ordered
  unsaved : ∀ (ref : BlockRef) (b : Block K V) (es : Entries K V), e.blocks[ref]? = some b →
    b.dirty = true → b.entries = some es → unsaved ref past = some es
  warranted : Warranted past

/-- A move that reads no block that is adrift keeps the ledger. -/
theorem Move.ledger (h : Move k e ds e') (hdrift : ∀ r, e.Adrift r → e'.Adrift r)
    (hl : Ledger past e) : Ledger (ds ++ past) e' := by
  refine ⟨h.ordered hl.ordered, fun r b' es' hb' hdirty' hes' => ?_, ?_⟩
  · have hbecomes := h.becomes hl.ordered hb'
    generalize hold : e.blocks[r]? = old at hbecomes
    cases hbecomes with
    | @rest b b' hds hdirty hhome hinfo hentries =>
      rw [unsaved_append_of_ref_ne hds]
      have hdirty₀ := hdirty.symm.trans hdirty'
      rcases hentries with hsame | ⟨hnone, -⟩ | ⟨hnone, -⟩
      · exact hl.unsaved r b es' hold hdirty₀ (hsame.symm.trans hes')
      · simp [hnone] at hes'
      · -- a dirty block would have been read
        obtain ⟨c, hc, -, hcnone⟩ := hdrift r ⟨b, hold, hdirty₀, hnone⟩
        obtain rfl := Option.some.inj (hb'.symm.trans hc)
        simp [hcnone] at hes'
    | @write b b' es done hds hdirty hes hdirty₁ hhome hentries =>
      obtain rfl : done = false := by simpa [hdirty'] using hdirty₁
      have hsame : b'.entries = some es := by simpa using hentries
      obtain rfl := Option.some.inj (hsame.symm.trans hes')
      rw [hds]
      exact (if_neg (by simp)).trans (hl.unsaved r b es hold hdirty hes)
    | change hk hds hdirty hes => exact Option.some.inj (hes.symm.trans hes') ▸ hds past
  · rcases h.write_cases with hnone | ⟨ref, b, es, done, rfl, hb, hdirty, hes⟩
    · have hall : ∀ ds : List (Deed K V), (∀ d ∈ ds, d.order? = none) → Warranted (ds ++ past) := by
        intro ds hds
        induction ds with
        | nil => exact hl.warranted
        | cons d ds ih =>
          rw [List.forall_mem_cons] at hds
          cases d with
          | change r entries => exact ih hds.2
          | write r entries done => simp [Deed.order?] at hds
      exact hall ds hnone
    · exact ⟨hl.unsaved ref b es hb hdirty hes, hl.ordered ref b es hb hes, hl.warranted⟩

/-- What moves leave adrift is adrift all the way. -/
theorem Move.drift (h : Move k e ds e') (hs : Moves k e' ds' e'') (hordered : e.Ordered)
    (hdrift : ∀ r, e.Adrift r → e''.Adrift r) :
    (∀ r, e.Adrift r → e'.Adrift r) ∧ ∀ r, e'.Adrift r → e''.Adrift r :=
  ⟨fun r hr => (hs.adrift_of_adrift (h.ordered hordered) (hdrift r hr)).1,
    fun r hr => hdrift r (h.adrift_of_adrift hordered hr).1⟩

theorem Moves.ledger (h : Moves k e ds e') (hdrift : ∀ r, e.Adrift r → e'.Adrift r)
    (hl : Ledger past e) : Ledger (ds ++ past) e' := by
  induction h generalizing past with
  | refl e => exact hl
  | head hmove hs ih =>
    obtain ⟨hfirst, hrest⟩ := hmove.drift hs hl.ordered hdrift
    rw [List.append_assoc]
    exact ih hrest (hmove.ledger hfirst hl)

/-! ### Blocks that need not be written -/

/-- As long as no entries are changed, nothing is done with a block that need not be written. -/
theorem Move.spared (h : Move .keep e ds e') (hordered : e.Ordered)
    (hdrift : ∀ r, e.Adrift r → e'.Adrift r) (hb : e.blocks[r]? = some b) (hsaved : b.WrittenBack) :
    (∀ d ∈ ds, d.ref ≠ r) ∧ ∃ b', e'.blocks[r]? = some b' ∧ b.Spared b' := by
  have hlt := (List.getElem?_eq_some_iff.1 hb).1.trans_le h.length_le
  have hb' := List.getElem?_eq_getElem hlt
  have hbecomes := h.becomes hordered hb'
  generalize e'.blocks[r] = b' at hb' hbecomes
  rw [hb] at hbecomes
  cases hbecomes with
  | rest hds hdirty hhome hinfo hentries =>
    refine ⟨hds, b', hb', fun hdirty' => ?_, hdirty, hhome, hinfo⟩
    have hnone := hsaved (hdirty.symm.trans hdirty')
    obtain ⟨c, hc, -, hcnone⟩ := hdrift r ⟨b, hb, hdirty.symm.trans hdirty', hnone⟩
    exact Option.some.inj (hb'.symm.trans hc) ▸ hcnone
  | write hds hdirty hes => simp [hsaved hdirty] at hes
  | change hk => exact absurd rfl hk

theorem Moves.spared (h : Moves .keep e ds e') (hordered : e.Ordered)
    (hdrift : ∀ r, e.Adrift r → e'.Adrift r) (hb : e.blocks[r]? = some b) (hsaved : b.WrittenBack) :
    (∀ d ∈ ds, d.ref ≠ r) ∧ ∃ b', e'.blocks[r]? = some b' ∧ b.Spared b' := by
  induction h generalizing b with
  | refl e => exact ⟨by simp, b, hb, .refl hsaved⟩
  | head hmove hs ih =>
    obtain ⟨hfirst, hrest⟩ := hmove.drift hs hordered hdrift
    obtain ⟨hds, b₁, hb₁, hspared⟩ := hmove.spared hordered hfirst hb hsaved
    obtain ⟨hds', b', hb', hspared'⟩ := ih (hmove.ordered hordered) hrest hb₁ hspared.writtenBack
    exact ⟨fun d hd => (List.mem_append.1 hd).elim (hds' d) (hds d), b', hb',
      hspared.trans hspared'⟩

end Engine

end PagedMap
