import Mathlib
import PagedMap.Proofs.Calls

/-!
# Blocks that were given up

A map that gives up its blocks takes their entries out of memory without writing them.  A block that
was clean can still be read from its page, and gives the entries that it had.  A block that was
never written cannot be read at all (`Block.Lost`).  So all that a scan can still read there are
values that the map had (`Engine.Offers`), as long as no block was given up that had been written
and then changed.

Nothing that is done later changes this (`Engine.Relics.effect`): no map leads to the blocks any
more, and reading and evicting them moves their entries in and out of memory only.
-/

namespace PagedMap

variable {K V : Type}

/-- The block is not in memory, and was never written to a page. -/
def Block.Lost (b : Block K V) : Prop := b.entries = none ∧ b.page = noPage ∧ b.home.store = 0

/-- The scan reads a range of keys, has yet to come to blocks of `refs` only, and holds values of
`allowed` only. -/
structure Scan.Draws (allowed : Set V) (first last : Option K) (refs : Set BlockRef)
    (s : Scan K V) : Prop where
  range : s.first = first ∧ s.last = last
  queue : ∀ r ∈ s.queue, r ∈ refs
  buffer : ∀ v ∈ s.buffer, v ∈ allowed

namespace Scan

variable {allowed : Set V} {first last : Option K} {refs : Set BlockRef} {e : Engine K V}
  {ref : BlockRef} {s s' : Scan K V}

theorem Draws.visit? (h : s.Draws allowed first last refs)
    (hv : s.visit? e = some (ref, s')) : ref ∈ refs ∧ s'.Draws allowed first last refs := by
  obtain ⟨queue, b, -, hmem, rfl⟩ := Scan.visit?_eq_some hv
  exact ⟨h.queue _ (hmem List.mem_cons_self), h.range,
    fun n hn => h.queue n (hmem (List.mem_cons_of_mem _ hn)), by simp⟩

theorem Draws.ended (h : s.Draws allowed first last refs) :
    s.ended.Draws allowed first last refs := ⟨h.range, by simp [Scan.ended], by simp [Scan.ended]⟩

theorem Draws.filled {values : List V} {next : Option BlockRef}
    (h : s.Draws allowed first last refs) (hvalues : ∀ v ∈ values, v ∈ allowed)
    (hnext : ∀ n ∈ next, n ∈ refs) : (s.filled e values next).Draws allowed first last refs := by
  refine ⟨h.range, fun r hr => ?_, hvalues⟩
  rcases List.mem_append.1 hr with hr | hr
  · exact hnext r (by simpa using (List.mem_filter.1 hr).1)
  · exact h.queue r hr

end Scan

namespace Engine

variable [Wire K] [Wire V] [LE K] [DecidableLE K]

/-- No page has the number that stands for no page. -/
def Unnumbered (e : Engine K V) : Prop := (e.readPage 0 noPage).isOk = false

omit [LE K] [DecidableLE K] in
instance decidableUnnumbered (e : Engine K V) : Decidable e.Unnumbered :=
  inferInstanceAs (Decidable ((e.readPage 0 noPage).isOk = false))

/-- What can be read in the range from blocks of `refs`, and from where they lead to, are values of
`allowed`. -/
def Offers (allowed : Set V) (first last : Option K) (refs : Set BlockRef) (e : Engine K V) :
    Prop :=
  ∀ ref ∈ refs, ∃ b, e.blocks[ref]? = some b ∧ (∀ next ∈ b.next, next ∈ refs) ∧
    (b.Lost ∨ e.Coherent b ∧ ∀ entry ∈ Entries.between (e.content b) first last, entry.2 ∈ allowed)

variable [Lossless K] [Lossless V]

/-- A step that keeps what is on pages. -/
structure Lasts (limit : Option Nat) (e e' : Engine K V) : Prop where
  events : e.events <:+ e'.events
  roomy : e'.Within limit → e.Roomy limit → e'.Roomy limit
  pages : e'.Within limit → e.Roomy limit →
    ∀ store page es, e.readPage store page = .ok es → e'.readPage store page = .ok es

/-- A step that keeps everything, and leaves blocks that cannot be read. -/
structure Idles (limit : Option Nat) (e e' : Engine K V) : Prop extends Keeps limit e e' where
  lost : e'.Within limit → e.Roomy limit → e'.Unnumbered → ∀ (r : BlockRef) b,
    e.blocks[r]? = some b → b.Lost → e'.blocks[r]? = some b

variable {e e' e'' : Engine K V} {limit : Option Nat} {ref : BlockRef} {b : Block K V} {m : Nat}
  {allowed : Set V} {first last : Option K} {refs : Set BlockRef}

/-! ### What leaves blocks that cannot be read -/

theorem Keeps.lasts (h : Keeps limit e e') : Lasts limit e e' := ⟨h.events, h.roomy, h.pages⟩

omit [LE K] [DecidableLE K] in
theorem Lasts.refl (limit : Option Nat) (e : Engine K V) : Lasts limit e e :=
  ⟨List.suffix_refl _, fun _ hr => hr, fun _ _ _ _ _ hread => hread⟩

omit [LE K] [DecidableLE K] in
theorem Lasts.trans (h : Lasts limit e e') (h' : Lasts limit e' e'') : Lasts limit e e'' where
  events := h.events.trans h'.events
  roomy hw hr := h'.roomy hw (h.roomy (hw.of_suffix h'.events) hr)
  pages hw hr store page es hread :=
    have hw' := hw.of_suffix h'.events
    h'.pages hw (h.roomy hw' hr) store page es (h.pages hw' hr store page es hread)

omit [LE K] [DecidableLE K] in
theorem Lasts.of_stores (hstores : e'.stores = e.stores) (hvolume : e'.volume = e.volume)
    (hevents : e.events <:+ e'.events) : Lasts limit e e' :=
  ⟨hevents, fun _ hr => hr.congr hstores hvolume hevents, fun _ _ store page es hread => by
    rwa [readPage, hstores, hvolume]⟩

omit [LE K] [DecidableLE K] [Lossless K] [Lossless V] in
/-- A page that cannot be read at the end could not be read before. -/
theorem Unnumbered.of_pages (hnone : e'.Unnumbered) (hpages : ∀ store page es,
    e.readPage store page = .ok es → e'.readPage store page = .ok es) : e.Unnumbered := by
  unfold Unnumbered at *
  rcases hread : e.readPage 0 noPage with cause | es
  · rfl
  · rw [hpages _ _ _ hread] at hnone
    simp [Except.isOk, Except.toBool] at hnone

omit [LE K] [DecidableLE K] in
theorem Lasts.unnumbered (h : Lasts limit e e') (hw : e'.Within limit) (hr : e.Roomy limit)
    (hnone : e'.Unnumbered) : e.Unnumbered := hnone.of_pages (h.pages hw hr)

theorem Idles.refl (limit : Option Nat) (e : Engine K V) : Idles limit e e :=
  ⟨.refl limit e, fun _ _ _ _ _ hb _ => hb⟩

theorem Idles.trans (h : Idles limit e e') (h' : Idles limit e' e'') : Idles limit e e'' where
  toKeeps := h.toKeeps.trans h'.toKeeps
  lost hw hr hnone r b hb hlost := by
    have hw' := hw.of_suffix h'.events
    have hr' := h.roomy hw' hr
    exact h'.lost hw hr' hnone r b
      (h.lost hw' hr (h'.lasts.unnumbered hw hr' hnone) r b hb hlost) hlost

/-- A step that keeps everything and leaves blocks without entries. -/
theorem Idles.of_none (h : Keeps limit e e')
    (hnone : ∀ (r : BlockRef) b, e.blocks[r]? = some b → b.entries = none →
      e'.blocks[r]? = some b) :
    Idles limit e e' :=
  ⟨h, fun _ _ _ r b hb hlost => hnone r b hb hlost.1⟩

theorem Idles.of_blocks (h : Keeps limit e e') (hblocks : e'.blocks = e.blocks) :
    Idles limit e e' :=
  .of_none h fun _ _ hb _ => hblocks ▸ hb

theorem idles_access {r : Except MapError (Entries K V)} (hb : e.blocks[ref]? = some b)
    (h : Act.run (access ref b) e = (r, e')) : Idles limit e e' := by
  obtain ⟨hkeeps, -⟩ : Keeps limit e e' ∧ _ := access_spec hb h
  cases r with
  | error cause => exact .of_blocks hkeeps (quiet_access_error h).2
  | ok es =>
    obtain ⟨hquiet, -⟩ := quiet_access hb h
    refine ⟨hkeeps, fun hw hr hnone r b' hb' hlost => ?_⟩
    by_cases hne : r = ref
    · -- the block could not have been read
      subst hne
      obtain rfl : b = b' := Option.some.inj (hb.symm.trans hb')
      obtain ⟨hes, hpage, hstore⟩ := hlost
      have hunread := hkeeps.lasts.unnumbered hw hr hnone
      rcases access_cases h with ⟨es', hes', -, -⟩ | ⟨-, ⟨c, -, hr⟩ | ⟨xs, e₁, hload, -, -⟩⟩
      · simp [hes] at hes'
      · simp at hr
      · have hread := (loadPage_cases hload).2.2.1 xs rfl
        rw [hstore, hpage] at hread
        simp [Unnumbered, hread, Except.isOk, Except.toBool] at hunread
    · exact (hquiet.others r hne).trans hb'

theorem idles_persist {r : Except MapError Unit} (h : Act.run (persist ref) e = (r, e')) :
    Idles limit e e' := by
  refine .of_none (keeps_persist h) fun r b hb hes => ?_
  by_cases hne : r = ref
  · subst hne
    rcases persist_cases h with ⟨-, rfl, -⟩ | ⟨b', es, hb', hes', -⟩
    · exact hb
    · obtain rfl := Option.some.inj (hb.symm.trans hb')
      simp [hes] at hes'
  · exact ((quiet_persist h).1.others r hne).trans hb

variable [Std.IsLinearOrder K]

theorem idles_evict (page : Page BlockRef) (e : Engine K V) : Idles limit e (e.evict page) := by
  refine .of_none (keeps_evict page) fun r b hb hes => ?_
  by_cases hne : r = page.owner
  · subst hne
    unfold evict
    split
    · rcases hrun : Act.run (unload page.owner page.key.pageId) e with ⟨outcome, e₁⟩
      rcases unload_cases hrun with ⟨rfl, -⟩ | ⟨b', es, hb', hes', -⟩
      · exact hb
      · obtain rfl := Option.some.inj (hb.symm.trans hb')
        simp [hes] at hes'
    · exact hb
  · exact ((quiet_evict page e).others r hne).trans hb

theorem idles_addPage (policy : Nat) (page : Page BlockRef) (e : Engine K V) :
    Idles limit e (e.addPage policy page) := by
  have hreport : Idles limit e (e.record (.reported .add policy page)) :=
    .of_blocks (keeps_record _) rfl
  have hset (q : Policy BlockRef) : Idles limit (e.record (.reported .add policy page))
      ((e.record (.reported .add policy page)).setPolicy policy q) :=
      .of_blocks (keeps_setPolicy _ _) rfl
  dsimp only [addPage]
  split
  · exact hreport
  · split
    · exact (hreport.trans (hset _)).trans (idles_evict _ _)
    · exact hreport.trans (hset _)

omit [Std.IsLinearOrder K] in
theorem idles_hitPage (policy : Nat) (page : Page BlockRef) (e : Engine K V) :
    Idles limit e (e.hitPage policy page) := by
  refine .of_blocks (keeps_hitPage _ _) ?_
  dsimp only [hitPage]
  split <;> rfl

omit [Std.IsLinearOrder K] in
theorem idles_removePage (policy : Nat) (page : Page BlockRef) (e : Engine K V) :
    Idles limit e (e.removePage policy page) :=
  .of_blocks (keeps_removePage _ _) (blocks_removePage _ _ _)

theorem idles_touch (ref : BlockRef) (b : Block K V) (e : Engine K V) :
    Idles limit e (e.touch ref b) := by
  unfold touch
  split
  · exact idles_hitPage _ _ _
  · exact idles_addPage _ _ _

theorem idles_valuesIn (ref : BlockRef) (first last : Option K) (e : Engine K V) :
    Idles limit e (Act.run (valuesIn ref first last) e).2 := by
  rcases h : Act.run (valuesIn ref first last) e with ⟨r, e'⟩
  rcases valuesIn_cases h with ⟨-, -, rfl⟩ |
    ⟨b, hb, ⟨-, -, rfl⟩ | ⟨-, ⟨cause, haccess, -⟩ | ⟨es, e₁, haccess, -, rfl⟩⟩⟩
  · exact .refl limit _
  · exact .refl limit _
  · exact idles_access hb haccess
  · exact (idles_access hb haccess).trans (idles_touch _ _ _)

theorem idles_next (n : Nat) (e : Engine K V) : Idles limit e (e.next n).2 := by
  have hset (s : Scan K V) (e : Engine K V) : Idles limit e (e.setScan n s) :=
    .of_blocks (keeps_setScan n s) rfl
  unfold Engine.next
  split
  · exact .refl limit e
  · rename_i s hs
    exact (nextWithin_induct (.refl limit) (fun _ _ _ => .trans) hset
      (fun ref first last e => idles_valuesIn ref first last e) e.blocks.length s e).trans
      (hset _ _)

/-! ### What can be read -/

omit [Std.IsLinearOrder K] in
/-- What can be read stays the same while entries move in and out of memory. -/
theorem Offers.mono (h : Offers allowed first last refs e) (hi : Idles limit e e')
    (hw : e'.Within limit) (hr : e.Roomy limit) (hnone : e'.Unnumbered) :
    Offers allowed first last refs e' := by
  intro ref href
  obtain ⟨b, hb, hnext, hlost | ⟨hcoh, hvalues⟩⟩ := h ref href
  · exact ⟨b, hi.lost hw hr hnone ref b hb hlost, hnext, Or.inl hlost⟩
  · obtain ⟨b', hb', hcoh', hsame⟩ := hi.blocks hw hr ref b hb hcoh
    have hnext' : b'.next = b.next := congrArg (·.next) hsame
    have hcontent : e'.content b' = e.content b := Option.some.inj (congrArg (·.entries) hsame)
    exact ⟨b', hb', hnext'.symm ▸ hnext, Or.inr ⟨hcoh', hcontent.symm ▸ hvalues⟩⟩

theorem Offers.valuesIn {values : List V} {next : Option BlockRef}
    (h : Offers allowed first last refs e) (href : ref ∈ refs) (hw : e'.Within limit)
    (hr : e.Roomy limit) (hnone : e'.Unnumbered)
    (hrun : Act.run (valuesIn ref first last) e = (.ok (values, next), e')) :
    (∀ v ∈ values, v ∈ allowed) ∧ ∀ n ∈ next, n ∈ refs := by
  have hidles : Idles limit e e' := by
    have hi : Idles limit e _ := idles_valuesIn ref first last e
    rwa [hrun] at hi
  obtain ⟨b, hb, hnext, hkept⟩ := h ref href
  rcases valuesIn_at hb hrun with ⟨-, hvalues, -⟩ |
    ⟨-, ⟨cause, -, hvalues⟩ | ⟨es, e₁, haccess, hvalues, rfl⟩⟩
  · obtain ⟨rfl, rfl⟩ := Prod.mk.inj (Except.ok.inj hvalues)
    exact ⟨by simp, hnext⟩
  · simp at hvalues
  · obtain ⟨rfl, rfl⟩ := Prod.mk.inj (Except.ok.inj hvalues)
    refine ⟨?_, hnext⟩
    have htouch : Idles limit e₁ (e₁.touch ref b) := idles_touch ref b e₁
    have hw₁ := hw.of_suffix htouch.events
    have haccess' : Idles limit e e₁ := idles_access hb haccess
    rcases hkept with hlost | ⟨-, hallowed⟩
    · have hsame := haccess'.lost hw₁ hr
        (htouch.lasts.unnumbered hw (haccess'.roomy hw₁ hr) hnone) ref b hb hlost
      have hloaded := (quiet_access hb haccess).2
      have hes : b.entries = some es :=
        congrArg (·.entries) (Option.some.inj (hsame.symm.trans hloaded))
      simp [hlost.1] at hes
    · obtain rfl := access_eq_ok haccess
      intro v hv
      obtain ⟨entry, hentry, rfl⟩ := List.mem_map.1 hv
      exact hallowed entry hentry

/-- A scan that has yet to come to such blocks only gives values that are allowed. -/
theorem Offers.nextWithin {n fuel : Nat} {s s' : Scan K V} {value : Option (Except MapError V)}
    (h : Offers allowed first last refs e) (hs : s.Draws allowed first last refs)
    (hw : e'.Within limit) (hr : e.Roomy limit) (hnone : e'.Unnumbered)
    (hrun : nextWithin (setScan n) fuel s e = (value, s', e')) :
    (∀ v, value = some (.ok v) → v ∈ allowed) ∧ s'.Draws allowed first last refs := by
  induction fuel using Nat.strong_induction_on generalizing s e with
  | _ fuel ih =>
    rcases nextWithin_cases hrun with ⟨v, buffer, hbuffer, rfl, rfl, rfl⟩ | ⟨-, -, rfl, rfl, rfl⟩ |
      ⟨left, ref, s₁, r, e₁, -, rfl, hvisit, hvalues, hread⟩
    · have hmem := hs.buffer
      rw [hbuffer, List.forall_mem_cons] at hmem
      refine ⟨fun w hv => ?_, hs.range, hs.queue, hmem.2⟩
      obtain rfl : v = w := Except.ok.inj (Option.some.inj hv)
      exact hmem.1
    · exact ⟨fun v hv => by simp at hv, hs.ended⟩
    obtain ⟨href, hs₁⟩ := hs.visit? hvisit
    rcases hread with ⟨cause, -, rfl, rfl, rfl⟩ | ⟨values, next, rfl, hrest⟩
    · exact ⟨fun v hv => by simp at hv, hs₁.ended⟩
    · have hset : Idles limit e (e.setScan n (s₁.reading ref)) := .of_blocks (keeps_setScan n _) rfl
      have hvisited : Idles limit (e.setScan n (s₁.reading ref)) e₁ := by
        have hi : Idles limit _ _ :=
          idles_valuesIn ref s₁.first s₁.last (e.setScan n (s₁.reading ref))
        rwa [hvalues] at hi
      have hrest' : Keeps limit e₁ e' := keeps_nextWithin (fun _ _ => keeps_setScan n _) hrest
      have hw₁ := hw.of_suffix hrest'.events
      have hr₁ := hset.roomy (hw₁.of_suffix hvisited.events) hr
      have hr₂ := hvisited.roomy hw₁ hr₁
      have hnone₁ := hrest'.lasts.unnumbered hw hr₂ hnone
      have h₁ : Offers allowed first last refs (e.setScan n (s₁.reading ref)) :=
        h.mono hset (hw₁.of_suffix hvisited.events) hr (hvisited.lasts.unnumbered hw₁ hr₁ hnone₁)
      have hrange := hs₁.range
      rw [hrange.1, hrange.2] at hvalues
      obtain ⟨hgiven, hnext⟩ := h₁.valuesIn href hw₁ hr₁ hnone₁ hvalues
      exact ih left left.lt_succ_self (h₁.mono hvisited hw₁ hr₁ hnone₁)
        (hs₁.filled hgiven hnext) hr₂ hrest

/-! ### What is done to blocks that were given up -/

/-- No map leads to the blocks of `refs` any more, and what can be read in the range from them are
values of `allowed`. -/
structure Relics (limit : Option Nat) (allowed : Set V) (first last : Option K)
    (refs : Set BlockRef) (e : Engine K V) : Prop where
  roomy : e.Roomy limit
  offers : Offers allowed first last refs e
  apart : ∀ r ∈ refs, ∀ i b, ¬ e.Lists i r b

omit [Std.IsLinearOrder K] in
theorem Relics.idle (h : Relics limit allowed first last refs e) (hi : Idles limit e e')
    (hw : e'.Within limit) (hnone : e'.Unnumbered) : Relics limit allowed first last refs e' := by
  refine ⟨hi.roomy hw h.roomy, h.offers.mono hi hw h.roomy hnone, fun r hr i b hl => ?_⟩
  obtain ⟨state, hm, hmem, -⟩ := hl
  obtain ⟨b₀, hb₀, -⟩ := h.offers r hr
  exact h.apart r hr i b₀ ⟨state, hi.maps ▸ hm, hmem, hb₀⟩

omit [Std.IsLinearOrder K] in
/-- What is done to other blocks, and writes no page, does not matter. -/
theorem Relics.elsewhere (h : Relics limit allowed first last refs e) (hl : Lasts limit e e')
    (hw : e'.Within limit) (hblocks : ∀ r ∈ refs, e'.blocks[r]? = e.blocks[r]?)
    (hlists : ∀ r ∈ refs, ∀ i b, e'.Lists i r b → ∃ b', e.Lists i r b') :
    Relics limit allowed first last refs e' := by
  refine ⟨hl.roomy hw h.roomy, fun r hr => ?_, fun r hr i b hb => ?_⟩
  · obtain ⟨b, hb, hnext, hkept⟩ := h.offers r hr
    refine ⟨b, (hblocks r hr).trans hb, hnext, hkept.imp_right fun ⟨hcoh, hvalues⟩ => ?_⟩
    obtain ⟨hcoh', hcontent⟩ := hcoh.mono (hl.pages hw h.roomy)
    exact ⟨hcoh', hcontent.symm ▸ hvalues⟩
  · obtain ⟨b', hl'⟩ := hlists r hr i b hb
    exact h.apart r hr i b' hl'

variable {x y : Finset BlockRef × Engine K V}

theorem Step.lasts (hstep : Step m x y) : Lasts limit x.2 y.2 := by
  cases hstep with
  | read hl hrun => exact (access_spec hl.blocks_eq hrun).1.lasts
  | unread hl hrun => exact (access_spec hl.blocks_eq hrun).1.lasts
  | edit => exact .of_stores rfl rfl (List.suffix_refl _)
  | list => exact .of_stores rfl rfl (List.suffix_refl _)
  | hit => exact (keeps_hitPage _ _).lasts
  | add => exact (keeps_addPage _ _).lasts
  | persist _ hrun => exact (keeps_persist hrun).lasts
  | look => exact .of_stores rfl rfl (List.suffix_refl _)
  | note => exact (keeps_record _).lasts

theorem Steps.lasts (hsteps : Steps m x y) : Lasts limit x.2 y.2 := by
  induction hsteps with
  | refl => exact .refl limit _
  | tail _ hstep ih => exact ih.trans hstep.lasts

/-- A step of any map leaves what can be read there. -/
theorem Step.relics (hstep : Step m x y) (ht : x.2.Tidy) (hw : y.2.Within limit)
    (hnone : y.2.Unnumbered) (h : Relics limit allowed first last refs x.2) :
    Relics limit allowed first last refs y.2 := by
  have hlasts : Lasts limit x.2 y.2 := hstep.lasts
  cases hstep with
  | read hl hrun => exact h.idle (idles_access hl.blocks_eq hrun) hw hnone
  | unread hl hrun => exact h.idle (idles_access hl.blocks_eq hrun) hw hnone
  | @edit p e ref b b' hl _ hb =>
    have hother (r : BlockRef) (hr : r ∈ refs) : (e.setBlock ref b').blocks[r]? = e.blocks[r]? :=
      List.getElem?_set_ne fun heq : ref = r => h.apart r hr m b (heq ▸ hl)
    refine h.elsewhere hlasts hw hother fun r hr i c hc => ?_
    obtain ⟨state, hi, hmem, hget⟩ := hc
    exact ⟨c, state, hi, hmem, (hother r hr).symm.trans hget⟩
  | @list p e state b lastId hm hb =>
    have hlt (r : BlockRef) (hr : r ∈ refs) : r < e.blocks.length := by
      obtain ⟨c, hc, -⟩ := h.offers r hr
      exact (List.getElem?_eq_some_iff.1 hc).1
    refine h.elsewhere hlasts hw (fun r hr => List.getElem?_append_left (hlt r hr))
      fun r hr i c hc => ⟨c, ?_⟩
    exact ((lists_enlist ht hm hb).1 hc).resolve_right fun ⟨_, heq, _⟩ => (hlt r hr).ne heq
  | hit _ _ => exact h.idle (idles_hitPage _ _ _) hw hnone
  | add _ _ => exact h.idle (idles_addPage _ _ _) hw hnone
  | persist _ hrun => exact h.idle (idles_persist hrun) hw hnone
  | look scans =>
    exact h.idle (.of_blocks (.of_frame (List.suffix_refl _) rfl rfl rfl rfl) rfl) hw hnone
  | note notice => exact h.idle (.of_blocks (keeps_record _) rfl) hw hnone

theorem Steps.relics (hsteps : Steps m x y) (ht : x.2.Tidy) (hw : y.2.Within limit)
    (hnone : y.2.Unnumbered) (h : Relics limit allowed first last refs x.2) :
    Relics limit allowed first last refs y.2 := by
  induction hsteps with
  | refl => exact h
  | tail hsteps hstep ih =>
    have hlast : Lasts limit _ _ := hstep.lasts
    have hw' := hw.of_suffix hlast.events
    have hr := (Steps.lasts hsteps).roomy hw' h.roomy
    exact hstep.relics (Steps.retains hsteps ht).tidy hw hnone
      (ih hw' (hlast.unnumbered hw hr hnone))

omit [Std.IsLinearOrder K] in
theorem Aside.keeps (h : Aside e e') : Keeps limit e e' := by
  have hstore (i : Nat) : (e'.stores[i]?).map (·.backing) = (e.stores[i]?).map (·.backing) := by
    simpa using congrArg (·[i]?) h.stores
  refine .of_pages (h.events ▸ List.suffix_refl _) h.maps h.blocks fun _ hr => ⟨?_, ?_⟩
  · obtain ⟨s, hs, hroomy⟩ := hr
    obtain ⟨s', hs', hbacking⟩ : ∃ s', e'.stores = [s'] ∧ s'.backing = s.backing := by
      have hmap := h.stores
      rw [hs, List.map_singleton, List.map_eq_singleton_iff] at hmap
      exact hmap
    exact ⟨s', hs',
      h.volume.symm ▸ (hroomy.congr hbacking).mono (by rw [creations, creations, h.events])⟩
  · intro store page es hread
    have hsame := hstore store
    unfold readPage at *
    cases hs : e.stores[store]? with
    | none => simp [hs] at hread
    | some s =>
      cases hs' : e'.stores[store]? with
      | none => simp [hs, hs'] at hsame
      | some s' =>
        rw [hs, hs'] at hsame
        rw [hs] at hread
        dsimp only at hread ⊢
        rw [h.volume, Store.read_congr (Option.some.inj hsame)]
        exact hread

/-- Nothing but a restoration matters to what can be read there. -/
theorem Relics.effect {c : Call K V} (h : Relics limit allowed first last refs e)
    (he : Effect e c e') (ht : e.Tidy) (hboot : ∀ m snapshot, c ≠ .boot m snapshot)
    (hw : e'.Within limit) (hnone : e'.Unnumbered) : Relics limit allowed first last refs e' := by
  cases he with
  | steps _ hs => exact hs.relics ht hw hnone h
  | next => exact h.idle (idles_next _ _) hw hnone
  | giveUp _ hm he =>
    obtain ⟨hstores, hvolume, hevents, hblocks⟩ := confined_give_up hm he
    obtain ⟨-, -, hlists⟩ := tidy_give_up ht hm he
    refine h.elsewhere (.of_stores hstores hvolume hevents) hw
      (fun r hr => hblocks r fun hmem => ?_) fun r hr i b hl => ⟨b, ((hlists i r b).1 hl).2⟩
    obtain ⟨b, hb⟩ := ht.exists_lists hm hmem
    exact h.apart r hr _ b hb
  | boot => exact absurd rfl (hboot _ _)
  | make _ hstore he =>
    obtain ⟨-, hstores, -, hlists⟩ := tidy_addMap ht hstore he
    obtain ⟨budget, -, rfl⟩ := addMap_eq_ok he
    exact h.elsewhere (.of_stores rfl rfl (List.suffix_refl _)) hw (fun _ _ => rfl)
      fun r hr i b hl => ⟨b, (hlists i r b).1 hl⟩
  | evict => exact h.idle (idles_evict _ _) hw hnone
  | add => exact h.idle (idles_addPage _ _ _) hw hnone
  | hit => exact h.idle (idles_hitPage _ _ _) hw hnone
  | remove => exact h.idle (idles_removePage _ _ _) hw hnone
  | aside haside => exact h.idle (.of_blocks haside.keeps haside.blocks) hw hnone

end Engine

end PagedMap
