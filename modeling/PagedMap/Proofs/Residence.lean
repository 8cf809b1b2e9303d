import Mathlib
import PagedMap.Engine.Paging
import PagedMap.Proofs.Extension
import PagedMap.Proofs.Layout
import PagedMap.Proofs.Pages

/-!
# Where the entries of a block are

The entries of a block are in memory, or on its page if it is clean (`Engine.Coherent`).  Read from
where they are (`Engine.content`), they do not depend on what is in memory: `Block.settled` is the
block as it would be if it had never left memory, and no paging step changes it.

`Engine.Keeps` says what every paging step keeps, whether it succeeds or fails: the maps, what pages
hold, and all coherent blocks up to where their entries are.  It is shown for one step after the
other, up to the calls of a replacement policy, which may evict any page.  The steps keep this as
long as page numbers do not run out (`Engine.Within`), which matters for folders only.
-/

namespace PagedMap

variable {K V : Type}

/-- The block as it is if its entries never left memory. -/
def Block.settled (b : Block K V) (entries : Entries K V) : Block K V :=
  { b with
    entries := some entries
    dirty := true
    page := noPage
    tracked := true
    released := false }

@[simp] theorem Block.held_settled (b : Block K V) (entries : Entries K V) :
    (b.settled entries).held = entries := rfl

/-! ### Counting -/

namespace Event

/-- Whether a page store was asked to write a page. -/
def isCreation : Event K V → Bool
  | pageCreated .. => true
  | _ => false

/-- Whether a page store refused to read a page. -/
def isRefusedLoad : Event K V → Bool
  | pageLoaded _ _ (.error (.io .injected)) => true
  | _ => false

/-- Whether a page store failed to write a page. -/
def isFailedCreation : Event K V → Bool
  | pageCreated _ _ (.error _) => true
  | _ => false

/-- The entries that a page store was asked to write. -/
def written : Event K V → List (K × V)
  | pageCreated _ entries _ => entries
  | _ => []

/-- Every length within the entries to be written is a number of 64 bits. -/
def Fits [Wire K] [Wire V] [Lossless K] [Lossless V] : Event K V → Prop
  | pageCreated _ entries _ => Lossless.Fits entries
  | _ => True

end Event

namespace Engine

/-- How often a page store was asked to write a page. -/
def creations (e : Engine K V) : Nat := e.events.countP Event.isCreation

/-- How often a page store refused to read a page. -/
def refusedLoads (e : Engine K V) : Nat := e.events.countP Event.isRefusedLoad

/-- How often a page store failed to write a page. -/
def failedCreations (e : Engine K V) : Nat := e.events.countP Event.isFailedCreation

/-- No more pages were written than `limit` says, if it is given, and all can be read back. -/
def Within [Wire K] [Wire V] [Lossless K] [Lossless V] (limit : Option Nat) (e : Engine K V) :
    Prop :=
  ∀ n ∈ limit, e.creations ≤ n ∧ ∀ event ∈ e.events, event.Fits

/-- Where there is no limit, any number of pages may be written. -/
theorem within_none [Wire K] [Wire V] [Lossless K] [Lossless V] (e : Engine K V) : e.Within none :=
  fun _ hn => nomatch hn

/-- Entries without lengths in them can be read back if there are not too many of them on a page. -/
theorem within_some [Wire K] [Wire V] [Lossless K] [Lossless V] {e : Engine K V} {n : Nat}
    (hcreations : e.creations ≤ n) (hentries : ∀ entry : K × V, Lossless.Fits entry)
    (hfew : ∀ event ∈ e.events, event.written.length < UInt64.size) : e.Within (some n) := by
  intro n' hn'
  obtain rfl := Option.some.inj hn'
  refine ⟨hcreations, fun event hevent => ?_⟩
  have hwritten := hfew event hevent
  cases event with
  | pageCreated _ entries _ => exact ⟨hwritten, fun entry _ => hentries entry⟩
  | _ => trivial

/-- There is one page store, and it is roomy for as many pages as `limit` leaves. -/
def Roomy (limit : Option Nat) (e : Engine K V) : Prop :=
  ∃ s, e.stores = [s] ∧ s.Roomy (limit.map (· - e.creations)) e.volume

theorem Roomy.congr {e e' : Engine K V} {limit : Option Nat} (h : e.Roomy limit)
    (hstores : e'.stores = e.stores) (hvolume : e'.volume = e.volume)
    (hevents : e.events <:+ e'.events) : e'.Roomy limit := by
  obtain ⟨s, hs, hroomy⟩ := h
  exact ⟨s, hstores.trans hs, hvolume ▸ hroomy.mono (List.Sublist.countP_le hevents.sublist)⟩

variable [Wire K] [Wire V]

/-! ### What comes of a step -/

/-- The entries of a page. -/
def readPage (e : Engine K V) (store page : Nat) : Except StoreError (List (K × V)) :=
  match e.stores[store]? with
  | none => .error (.pageNotFound page)
  | some s => s.read e.volume page

section Cases

variable {e e' : Engine K V} {b : Block K V} {ref : BlockRef}

theorem loadPage_cases {store page : Nat} {r : Except StoreError (List (K × V))}
    (h : e.loadPage store page = (r, e')) : e'.blocks = e.blocks ∧
      (∀ store page, e'.readPage store page = e.readPage store page) ∧
      (∀ es, r = .ok es → e.readPage store page = .ok es) ∧
      ∀ cause, r = .error cause → store < e.stores.length →
        e'.events = .pageLoaded store page (.error cause) :: e.events ∧
          (cause = .io .injected ∨ e.readPage store page = .error cause) := by
  unfold loadPage at h
  split at h
  · rename_i hnone
    obtain ⟨rfl, rfl⟩ := Prod.mk.inj h
    refine ⟨rfl, fun _ _ => rfl, fun es hes => by simp at hes, fun cause _ hlt => ?_⟩
    simp [List.getElem?_eq_getElem hlt] at hnone
  · rename_i s hs
    have hbacking := Store.backing_load s e.volume page
    have hok (es : List (K × V)) (hes : (s.load e.volume page).1 = .ok es) :
        s.read e.volume page = .ok es := Store.load_eq_ok hes
    have herror (cause : StoreError) (hcause : (s.load e.volume page).1 = .error cause) :
        cause = .io .injected ∨ s.read e.volume page = .error cause := Store.load_eq_error hcause
    generalize s.load e.volume page = out at h hok herror hbacking
    obtain ⟨r', s'⟩ := out
    obtain ⟨rfl, rfl⟩ := Prod.mk.inj h
    refine ⟨rfl, fun store' page' => ?_, fun es hes => ?_, fun cause hcause _ => ?_⟩
    · obtain ⟨hlt, hget⟩ := List.getElem?_eq_some_iff.1 hs
      by_cases hne : store = store'
      · subst hne
        simp [readPage, record, hlt, hget, Store.read_congr hbacking]
      · simp [readPage, record, List.getElem?_set_ne hne]
    · rw [readPage, hs]
      exact hok es hes
    · refine ⟨by rw [record, hcause]; rfl, ?_⟩
      rw [readPage, hs]
      exact herror cause hcause

/-- Reading a page is recorded, unless there is no such store. -/
theorem events_loadPage {store page : Nat} {r : Except StoreError (List (K × V))}
    (h : e.loadPage store page = (r, e')) : e'.events = e.events ∨
      e'.events = .pageLoaded store page (r.map List.length) :: e.events := by
  unfold loadPage at h
  split at h <;> obtain ⟨rfl, rfl⟩ := Prod.mk.inj h
  · exact Or.inl rfl
  · exact Or.inr rfl

theorem persist_cases {r : Except MapError Unit} (h : Act.run (persist ref) e = (r, e')) :
    (r = .ok () ∧ e' = e ∧
      ∀ b, e.blocks[ref]? = some b → b.entries = none ∨ b.dirty = false) ∨
    ∃ b es, e.blocks[ref]? = some b ∧ b.entries = some es ∧ b.dirty = true ∧
      ((∃ cause, e.createPage b.home.store es = (.error cause, e') ∧ r = .error (.storage cause)) ∨
        ∃ page e₁, e.createPage b.home.store es = (.ok page, e₁) ∧ r = .ok () ∧
          e' = (e₁.setBlock ref { b with page, dirty := false }).notify
            (.blockPersisted b.id page es.length)) := by
  simp only [persist, Act.run_bind, Act.run_get] at h
  split at h
  · rename_i b hb
    split at h
    · rename_i es hes
      split at h
      · rename_i hdirty
        refine Or.inr ⟨b, es, hb, hes, hdirty, ?_⟩
        rw [Act.run_bind, Act.run_ofStore] at h
        rcases hcreate : e.createPage b.home.store es with ⟨cause | page, e₁⟩
        · simp only [hcreate, Except.mapError, Prod.mk.injEq] at h
          obtain ⟨rfl, rfl⟩ := h
          exact Or.inl ⟨cause, rfl, rfl⟩
        · simp only [hcreate, Except.mapError, Act.run_bind, Act.run_modify, Prod.mk.injEq] at h
          obtain ⟨rfl, rfl⟩ := h
          exact Or.inr ⟨page, e₁, rfl, rfl, rfl⟩
      · rename_i hclean
        obtain ⟨rfl, rfl⟩ := Prod.mk.inj h
        refine Or.inl ⟨rfl, rfl, fun b' hb' => Or.inr ?_⟩
        obtain rfl := Option.some.inj (hb.symm.trans hb')
        simpa using hclean
    · rename_i hes
      obtain ⟨rfl, rfl⟩ := Prod.mk.inj h
      refine Or.inl ⟨rfl, rfl, fun b' hb' => Or.inl ?_⟩
      obtain rfl := Option.some.inj (hb.symm.trans hb')
      exact Option.eq_none_iff_forall_ne_some.2 hes
  · rename_i hb
    obtain ⟨rfl, rfl⟩ := Prod.mk.inj h
    exact Or.inl ⟨rfl, rfl, fun b hb' => absurd hb' (hb b)⟩

/-- After a block was written to a page, it is clean if its entries are in memory. -/
theorem persist_clean (h : Act.run (persist ref) e = (.ok (), e')) (hb : e'.blocks[ref]? = some b) :
    b.entries = none ∨ b.dirty = false := by
  rcases persist_cases h with ⟨-, rfl, hclean⟩ | ⟨b₀, es, hb₀, -, -, hcreate⟩
  · exact hclean b hb
  rcases hcreate with ⟨cause, -, hr⟩ | ⟨page, e₁, -, -, rfl⟩
  · simp at hr
  · have hset : (e₁.blocks.set ref { b₀ with page, dirty := false })[ref]? = some b := hb
    rw [List.getElem?_set_self' ] at hset
    obtain ⟨x, -, rfl⟩ := Option.map_eq_some_iff.1 hset
    exact Or.inr rfl

theorem unload_cases {page : Nat} {r : Except MapError Bool}
    (h : Act.run (unload ref page) e = (r, e')) :
    (e' = e ∧ (r = .ok false ∨ ∃ b, r = .error (.pageMismatch b page))) ∨
    ∃ b es, e.blocks[ref]? = some b ∧ b.entries = some es ∧
      ((∃ cause, Act.run (persist ref) (e.setBlock ref { b with tracked := false }) =
          (.error cause, e') ∧ r = .error cause) ∨
        ∃ e₁, Act.run (persist ref) (e.setBlock ref { b with tracked := false }) = (.ok (), e₁) ∧
          r = .ok true ∧
          e' = ({ e₁ with blocks := e₁.blocks.modify ref ({ · with entries := none }) } :
            Engine K V).notify (.blockUnloaded b.id)) := by
  simp only [unload, Act.run_bind, Act.run_get] at h
  split at h
  · rename_i b hb
    split at h
    · obtain ⟨rfl, rfl⟩ := Prod.mk.inj h
      exact Or.inl ⟨rfl, Or.inr ⟨b.id, rfl⟩⟩
    · cases hes : b.entries with
      | none =>
        simp only [hes, Option.isNone_none, if_true] at h
        obtain ⟨rfl, rfl⟩ := Prod.mk.inj h
        exact Or.inl ⟨rfl, Or.inl rfl⟩
      | some es =>
        refine Or.inr ⟨b, es, hb, hes, ?_⟩
        rw [if_neg (by simp [hes])] at h
        simp only [Act.run_bind, Act.run_modify] at h
        rcases hp : Act.run (persist ref) (e.setBlock ref { b with tracked := false }) with
          ⟨cause | x, e₁⟩ <;> rw [hp] at h
        · obtain ⟨rfl, rfl⟩ := Prod.mk.inj h
          exact Or.inl ⟨cause, rfl, rfl⟩
        · obtain ⟨rfl, rfl⟩ := Prod.mk.inj h
          exact Or.inr ⟨e₁, rfl, rfl, rfl⟩
  · obtain ⟨rfl, rfl⟩ := Prod.mk.inj h
    exact Or.inl ⟨rfl, Or.inl rfl⟩

/-- What comes of asking for the entries of a block: those in memory, or what its page is read
to. -/
theorem access_cases [LE K] [DecidableLE K] {r : Except MapError (Entries K V)}
    (h : Act.run (access ref b) e = (r, e')) :
    (∃ es, b.entries = some es ∧ r = .ok es ∧ e' = e.setBlock ref (b.loaded es)) ∨
    (b.entries = none ∧
      ((∃ cause, e.loadPage b.home.store b.page = (.error cause, e') ∧
        r = .error (.storage cause)) ∨
        ∃ xs e₁, e.loadPage b.home.store b.page = (.ok xs, e₁) ∧ r = .ok (Entries.ofList xs) ∧
          e' = e₁.setBlock ref (b.loaded (Entries.ofList xs)))) := by
  dsimp only [access] at h
  cases hes : b.entries with
  | some es =>
    simp only [hes, Act.run_bind, Act.run_pure, Act.run_modify] at h
    obtain ⟨rfl, rfl⟩ := Prod.mk.inj h
    exact Or.inl ⟨es, rfl, rfl, rfl⟩
  | none =>
    simp only [hes, Act.run_bind, Act.run_map, Act.run_ofStore] at h
    rcases hload : e.loadPage b.home.store b.page with ⟨cause | xs, e₁⟩ <;>
      simp only [hload, Except.mapError, Except.map, Act.run_modify, Act.run_pure] at h <;>
      obtain ⟨rfl, rfl⟩ := Prod.mk.inj h
    · exact Or.inr ⟨rfl, Or.inl ⟨cause, rfl, rfl⟩⟩
    · exact Or.inr ⟨rfl, Or.inr ⟨xs, e₁, rfl, rfl, rfl⟩⟩

end Cases

/-! ### Contents of blocks -/

/-- What the entries on a page are taken for; none if the page cannot be read. -/
def stored [LE K] [DecidableLE K] (e : Engine K V) (store page : Nat) : Entries K V :=
  match e.readPage store page with
  | .ok es => Entries.ofList es
  | .error _ => []

variable [LE K] [DecidableLE K]

/-- The entries of a block, wherever they are. -/
def content (e : Engine K V) (b : Block K V) : Entries K V :=
  match b.entries with
  | some es => es
  | none => e.stored b.home.store b.page

/-- The entries of the block are in memory, or on its page if it is clean. -/
structure Coherent (e : Engine K V) (b : Block K V) : Prop where
  sorted : (e.content b).Sorted
  loaded : b.dirty = true → b.entries.isSome = true
  onPage : b.dirty = false → e.readPage b.home.store b.page = .ok (e.content b)

/-- The stretch is the block at its reference, settled. -/
def Shows (e : Engine K V) (s : Stretch K V) : Prop :=
  ∃ b, e.blocks[s.ref]? = some b ∧ e.Coherent b ∧ s.block = b.settled (e.content b)

variable {e e' e'' : Engine K V} {b b' : Block K V} {ref : BlockRef} {limit : Option Nat}

theorem stored_of_read {store page : Nat} {es : List (K × V)} (h : e.readPage store page = .ok es) :
    e.stored store page = Entries.ofList es := by
  rw [stored, h]

theorem content_of_some {es : Entries K V} (h : b.entries = some es) : e.content b = es := by
  rw [content, h]

theorem content_of_none (h : b.entries = none) : e.content b = e.stored b.home.store b.page := by
  rw [content, h]

/-- The entries of a coherent block that are not in memory can be read from its page. -/
theorem Coherent.read_of_none (h : e.Coherent b) (hes : b.entries = none) :
    e.readPage b.home.store b.page = .ok (e.content b) := by
  refine h.onPage (Bool.eq_false_iff.2 fun hdirty => ?_)
  simpa [hes] using h.loaded hdirty

/-- Coherent blocks depend on what is on pages and on nothing else. -/
theorem Coherent.mono (h : e.Coherent b) (hpages : ∀ store page es,
    e.readPage store page = .ok es → e'.readPage store page = .ok es) :
    e'.Coherent b ∧ e'.content b = e.content b := by
  have hcontent : e'.content b = e.content b := by
    cases hes : b.entries with
    | some es => rw [content_of_some hes, content_of_some hes]
    | none =>
      have hread := h.read_of_none hes
      rw [content_of_none hes, stored_of_read (hpages _ _ _ hread), ← stored_of_read hread,
        ← content_of_none hes]
  exact ⟨⟨hcontent ▸ h.sorted, h.loaded, fun hclean => hcontent ▸ hpages _ _ _ (h.onPage hclean)⟩,
    hcontent⟩

theorem Coherent.congr (h : e.Coherent b) (hstores : e'.stores = e.stores)
    (hvolume : e'.volume = e.volume) : e'.Coherent b :=
  (h.mono fun store page es hread => by rwa [readPage, hstores, hvolume]).1

/-! ### What paging keeps -/

variable [Lossless K] [Lossless V]

/-- What a paging step keeps. -/
structure Keeps (limit : Option Nat) (e e' : Engine K V) : Prop where
  events : e.events <:+ e'.events
  maps : e'.maps = e.maps
  length : e'.blocks.length = e.blocks.length
  roomy : e'.Within limit → e.Roomy limit → e'.Roomy limit
  pages : e'.Within limit → e.Roomy limit →
    ∀ store page es, e.readPage store page = .ok es → e'.readPage store page = .ok es
  blocks : e'.Within limit → e.Roomy limit → ∀ (ref : BlockRef) (b : Block K V),
    e.blocks[ref]? = some b → e.Coherent b → ∃ b', e'.blocks[ref]? = some b' ∧ e'.Coherent b' ∧
      b'.settled (e'.content b') = b.settled (e.content b)

omit [LE K] [DecidableLE K] in
/-- What was within a limit at the end was so all the time. -/
theorem Within.of_suffix (h : e'.Within limit) (hs : e.events <:+ e'.events) : e.Within limit :=
  fun n hn => ⟨Nat.le_trans (List.Sublist.countP_le hs.sublist) (h n hn).1,
    fun event he => (h n hn).2 event (hs.subset he)⟩

theorem Keeps.refl (limit : Option Nat) (e : Engine K V) : Keeps limit e e where
  events := List.suffix_refl _
  maps := rfl
  length := rfl
  roomy _ h := h
  pages _ _ _ _ _ h := h
  blocks _ _ _ b hb hcoh := ⟨b, hb, hcoh, rfl⟩

theorem Keeps.trans (h : Keeps limit e e') (h' : Keeps limit e' e'') : Keeps limit e e'' where
  events := h.events.trans h'.events
  maps := h'.maps.trans h.maps
  length := h'.length.trans h.length
  roomy hw hr := h'.roomy hw (h.roomy (hw.of_suffix h'.events) hr)
  pages hw hr store page es hread :=
    have hw' := hw.of_suffix h'.events
    h'.pages hw (h.roomy hw' hr) store page es (h.pages hw' hr store page es hread)
  blocks hw hr ref b hb hcoh := by
    have hw' := hw.of_suffix h'.events
    obtain ⟨b', hb', hcoh', hsame⟩ := h.blocks hw' hr ref b hb hcoh
    obtain ⟨b'', hb'', hcoh'', hsame'⟩ := h'.blocks hw (h.roomy hw' hr) ref b' hb' hcoh'
    exact ⟨b'', hb'', hcoh'', hsame'.trans hsame⟩

theorem Keeps.shows (h : Keeps limit e e') (hw : e'.Within limit) (hr : e.Roomy limit)
    {s : Stretch K V} (hs : e.Shows s) : e'.Shows s := by
  obtain ⟨b, hb, hcoh, hblock⟩ := hs
  obtain ⟨b', hb', hcoh', hsame⟩ := h.blocks hw hr _ b hb hcoh
  exact ⟨b', hb', hcoh', hblock.trans hsame.symm⟩

/-! ### Steps that leave the blocks -/

/-- A step that leaves the blocks and what pages hold keeps everything. -/
theorem Keeps.of_pages (hevents : e.events <:+ e'.events) (hmaps : e'.maps = e.maps)
    (hblocks : e'.blocks = e.blocks)
    (hpages : e'.Within limit → e.Roomy limit → e'.Roomy limit ∧
      ∀ store page es, e.readPage store page = .ok es → e'.readPage store page = .ok es) :
    Keeps limit e e' where
  events := hevents
  maps := hmaps
  length := congrArg List.length hblocks
  roomy hw hr := (hpages hw hr).1
  pages hw hr := (hpages hw hr).2
  blocks hw hr ref b hb hcoh := by
    obtain ⟨hcoh', hcontent⟩ := hcoh.mono (hpages hw hr).2
    exact ⟨b, hblocks ▸ hb, hcoh', by rw [hcontent]⟩

/-- A step that leaves the blocks, the stores and the volume keeps everything. -/
theorem Keeps.of_frame (hevents : e.events <:+ e'.events) (hmaps : e'.maps = e.maps)
    (hblocks : e'.blocks = e.blocks) (hstores : e'.stores = e.stores)
    (hvolume : e'.volume = e.volume) : Keeps limit e e' := by
  refine .of_pages hevents hmaps hblocks fun _ hr => ⟨hr.congr hstores hvolume hevents, ?_⟩
  intro store page es hread
  rwa [readPage, hstores, hvolume]

theorem keeps_record (event : Event K V) : Keeps limit e (e.record event) :=
  .of_frame (List.suffix_cons _ _) rfl rfl rfl rfl

theorem keeps_setPolicy (policy : Nat) (p : Policy BlockRef) :
    Keeps limit e (e.setPolicy policy p) :=
  .of_frame (List.suffix_refl _) rfl rfl rfl rfl

theorem keeps_loadPage {store page : Nat} {r : Except StoreError (List (K × V))}
    (h : e.loadPage store page = (r, e')) : Keeps limit e e' := by
  have hsame := (loadPage_cases h).2.1
  unfold loadPage at h
  split at h
  · obtain ⟨-, rfl⟩ := Prod.mk.inj h
    exact .refl limit _
  · rename_i s hs
    have hbacking := Store.backing_load s e.volume page
    generalize s.load e.volume page = out at h hbacking
    obtain ⟨r', s'⟩ := out
    obtain ⟨-, rfl⟩ := Prod.mk.inj h
    refine .of_pages (List.suffix_cons _ _) rfl rfl fun _ hr => ?_
    obtain ⟨s₀, hs₀, hroomy⟩ := hr
    obtain ⟨rfl, rfl⟩ : store = 0 ∧ s = s₀ := by
      cases store <;> simp_all
    refine ⟨⟨s', by simp [record, hs₀], (hroomy.congr hbacking).mono ?_⟩, fun _ _ _ hread => ?_⟩
    · exact List.Sublist.countP_le (List.sublist_cons_self _ _)
    · rwa [hsame]

/-- Writing a page keeps everything, and the new page holds the entries. -/
theorem createPage_spec {store : Nat} {entries : List (K × V)} {r : Except StoreError Nat}
    (h : e.createPage store entries = (r, e')) : Keeps limit e e' ∧ e'.blocks = e.blocks ∧
      ∀ page, r = .ok page → e'.Within limit → e.Roomy limit →
        e'.readPage store page = .ok entries := by
  unfold createPage at h
  split at h
  · obtain ⟨rfl, rfl⟩ := Prod.mk.inj h
    exact ⟨.refl limit e, rfl, fun page hpage => by simp at hpage⟩
  · rename_i s hs
    generalize hcreate : s.create e.volume entries = out at h
    obtain ⟨r', s', volume⟩ := out
    obtain ⟨rfl, rfl⟩ := Prod.mk.inj h
    have hspec (hw : Within limit ({ e with stores := e.stores.set store s', volume }.record
        (.pageCreated store entries r'))) (hr : e.Roomy limit) :
        store = 0 ∧ e.stores = [s] ∧ s'.Roomy (limit.map (· - (e.creations + 1))) volume ∧
          (∀ page es, s.read e.volume page = .ok es → s'.read volume page = .ok es) ∧
          ∀ page, r' = .ok page → s'.read volume page = .ok entries := by
      obtain ⟨s₀, hs₀, hroomy⟩ := hr
      obtain ⟨rfl, rfl⟩ : store = 0 ∧ s = s₀ := by
        cases store <;> simp_all
      refine ⟨rfl, hs₀, hroomy.create (fun m hm => ?_) (fun hsome => ?_) hcreate⟩
      · have hcount := (hw m hm).1
        rwa [creations, record, List.countP_cons_of_pos rfl] at hcount
      · obtain ⟨m, hm⟩ := Option.isSome_iff_exists.1 hsome
        exact (hw m hm).2 _ List.mem_cons_self
    refine ⟨.of_pages (List.suffix_cons _ _) rfl rfl fun hw hr => ?_, rfl,
      fun page hpage hw hr => ?_⟩
    · obtain ⟨rfl, hs₀, hroomy, hkept, -⟩ := hspec hw hr
      refine ⟨⟨s', by simp [record, hs₀], ?_⟩, fun store' page es hread => ?_⟩
      · rwa [creations, record, List.countP_cons_of_pos rfl]
      · cases store' with
        | zero =>
          have hold : s.read e.volume page = .ok es := by simpa [readPage, hs₀] using hread
          simpa [readPage, record, hs₀] using hkept page es hold
        | succ n => simp [readPage, hs₀] at hread
    · obtain ⟨rfl, hs₀, -, -, hnew⟩ := hspec hw hr
      simpa [readPage, record, hs₀] using hnew page hpage

/-! ### Steps that change one block -/

/-- After a step that keeps everything, a block may be replaced by one with the same settled
form. -/
theorem Keeps.setBlock (hk : Keeps limit e e') (hb : e'.blocks[ref]? = some b)
    (h : e'.Within limit → e.Roomy limit → e'.Coherent b →
      e'.Coherent b' ∧ b'.settled (e'.content b') = b.settled (e'.content b)) :
    Keeps limit e (e'.setBlock ref b') where
  events := hk.events
  maps := hk.maps
  length := List.length_set.trans hk.length
  roomy := hk.roomy
  pages := hk.pages
  blocks hw hr ref' x hx hcoh := by
    have hlt : ref < e'.blocks.length := (List.getElem?_eq_some_iff.1 hb).1
    obtain ⟨x', hx', hcoh', hsame⟩ := hk.blocks hw hr ref' x hx hcoh
    by_cases hne : ref = ref'
    · subst hne
      obtain rfl : b = x' := Option.some.inj (hb.symm.trans hx')
      obtain ⟨hcoh'', hsame'⟩ := h hw hr hcoh'
      exact ⟨b', by simp [Engine.setBlock, hlt], hcoh''.congr rfl rfl, hsame'.trans hsame⟩
    · exact ⟨x', by simpa [Engine.setBlock, List.getElem?_set_ne hne] using hx',
        hcoh'.congr rfl rfl, hsame⟩

/-! ### Into memory -/

omit [Lossless K] [Lossless V] in
/-- A block stays coherent when its entries come into memory. -/
theorem Coherent.loaded_content (h : e.Coherent b) : e.Coherent (b.loaded (e.content b)) ∧
    (b.loaded (e.content b)).settled (e.content (b.loaded (e.content b))) =
      b.settled (e.content b) := by
  have hcontent : e.content (b.loaded (e.content b)) = e.content b := content_of_some rfl
  refine ⟨⟨hcontent.symm ▸ h.sorted, fun _ => rfl, fun hclean => ?_⟩, by rw [hcontent]; rfl⟩
  rw [hcontent]
  exact h.onPage hclean

omit [Lossless K] [Lossless V] in
/-- Asking for the entries of a block fails if they are not in memory and the page cannot be
read. -/
theorem access_error {cause : MapError} (h : Act.run (access ref b) e = (.error cause, e')) :
    b.entries = none ∧ ∃ c, cause = .storage c ∧
      e.loadPage b.home.store b.page = (.error c, e') := by
  rcases access_cases h with ⟨es, -, hr, -⟩ | ⟨hes, ⟨c, hload, hr⟩ | ⟨xs, e₁, -, hr, -⟩⟩
  · simp at hr
  · exact ⟨hes, c, Except.error.inj hr, hload⟩
  · simp at hr

omit [Lossless K] [Lossless V] in
/-- What is given are the entries of the block, wherever they were. -/
theorem access_eq_ok {es : Entries K V} (h : Act.run (access ref b) e = (.ok es, e')) :
    es = e.content b := by
  rcases access_cases h with ⟨es', hes, hr, -⟩ | ⟨hes, ⟨c, -, hr⟩ | ⟨xs, e₁, hload, hr, -⟩⟩
  · rw [content_of_some hes, Except.ok.inj hr]
  · simp at hr
  · obtain ⟨-, -, hread, -⟩ := loadPage_cases hload
    rw [content_of_none hes, stored_of_read (hread xs rfl), Except.ok.inj hr]

/-- What comes of asking for the entries of a block: they are in memory then, or nothing is done but
a failed read, which was refused if the block is coherent. -/
theorem access_spec {r : Except MapError (Entries K V)} (hb : e.blocks[ref]? = some b)
    (h : Act.run (access ref b) e = (r, e')) : Keeps limit e e' ∧
    ((∃ cause, r = .error (.storage cause) ∧ b.entries = none ∧ e'.blocks = e.blocks ∧
        (e.Coherent b → b.home.store < e.stores.length → cause = .io .injected ∧
          e'.events = .pageLoaded b.home.store b.page (.error cause) :: e.events)) ∨
      ∃ es, r = .ok es ∧ e'.blocks[ref]? = some (b.loaded es)) := by
  have hlt : ref < e.blocks.length := (List.getElem?_eq_some_iff.1 hb).1
  rcases access_cases h with ⟨es, hes, rfl, rfl⟩ |
    ⟨hes, ⟨cause, hload, rfl⟩ | ⟨xs, e₁, hload, rfl, rfl⟩⟩
  · have hcontent : e.content b = es := content_of_some hes
    refine ⟨(Keeps.refl limit e).setBlock hb fun _ _ hcoh => ?_,
      Or.inr ⟨es, rfl, by simp [setBlock, hlt]⟩⟩
    exact hcontent ▸ hcoh.loaded_content
  · obtain ⟨hblocks, -, -, hfailed⟩ := loadPage_cases hload
    refine ⟨keeps_loadPage hload, Or.inl ⟨cause, rfl, hes, hblocks, fun hcoh hlt => ?_⟩⟩
    obtain ⟨hevents, hcause⟩ := hfailed cause rfl hlt
    refine ⟨hcause.resolve_right fun hread => ?_, hevents⟩
    rw [hcoh.read_of_none hes] at hread
    simp at hread
  · obtain ⟨hblocks, hsame, hread, -⟩ := loadPage_cases hload
    have hkeeps : Keeps limit e e₁ := keeps_loadPage hload
    have hcontent : e₁.content b = Entries.ofList xs := by
      rw [content_of_none hes, stored_of_read ((hsame _ _).trans (hread xs rfl))]
    refine ⟨hkeeps.setBlock (hblocks ▸ hb) fun hw hr hcoh => ?_, Or.inr ⟨_, rfl, ?_⟩⟩
    · exact hcontent ▸ hcoh.loaded_content
    · simp [setBlock, hblocks, hlt]

/-! ### Out of memory -/

theorem keeps_persist {r : Except MapError Unit} (h : Act.run (persist ref) e = (r, e')) :
    Keeps limit e e' := by
  rcases persist_cases h with ⟨-, rfl, -⟩ | ⟨b, es, hb, hes, hdirty, hcreate⟩
  · exact .refl limit _
  rcases hcreate with ⟨cause, hcreate, -⟩ | ⟨page, e₁, hcreate, -, rfl⟩
  · exact (createPage_spec hcreate).1
  · obtain ⟨hkeeps, hblocks, hpage⟩ : Keeps limit e e₁ ∧ _ := createPage_spec hcreate
    refine (hkeeps.setBlock (hblocks ▸ hb) fun hw hr hcoh => ?_).trans (keeps_record _)
    have hcontent : e₁.content b = es := content_of_some hes
    have hcontent' : e₁.content { b with page, dirty := false } = es := content_of_some hes
    refine ⟨⟨?_, fun hdirty => by simp at hdirty, fun _ => ?_⟩, ?_⟩
    · exact hcontent'.symm ▸ hcontent ▸ hcoh.sorted
    · rw [hcontent']
      exact hpage page rfl hw hr
    · rw [hcontent, hcontent']
      rfl

variable [Std.IsLinearOrder K]

theorem keeps_unload {page : Nat} {r : Except MapError Bool}
    (h : Act.run (unload ref page) e = (r, e')) : Keeps limit e e' := by
  rcases unload_cases h with ⟨rfl, -⟩ | ⟨b, es, hb, hes, hpersist⟩
  · exact .refl limit _
  have hset : Keeps limit e (e.setBlock ref { b with tracked := false }) :=
    (Keeps.refl limit e).setBlock hb fun _ _ hcoh => ⟨⟨hcoh.sorted, hcoh.loaded, hcoh.onPage⟩, rfl⟩
  rcases hpersist with ⟨cause, hpersist, -⟩ | ⟨e₁, hpersist, -, rfl⟩
  · exact hset.trans (keeps_persist hpersist)
  · have hkeeps := hset.trans (keeps_persist hpersist)
    obtain ⟨b₁, hb₁⟩ : ∃ b₁, e₁.blocks[ref]? = some b₁ := by
      have hlt : ref < e₁.blocks.length := hkeeps.length ▸ (List.getElem?_eq_some_iff.1 hb).1
      exact ⟨_, List.getElem?_eq_getElem hlt⟩
    have hmodify : ({ e₁ with blocks := e₁.blocks.modify ref ({ · with entries := none }) } :
        Engine K V) = e₁.setBlock ref { b₁ with entries := none } := by
      rw [setBlock, List.modify_eq_set_getElem?, hb₁]
      rfl
    rw [hmodify]
    refine (hkeeps.setBlock hb₁ fun _ _ hcoh => ?_).trans (keeps_record _)
    rcases persist_clean hpersist hb₁ with hnone | hclean
    · have hsame : { b₁ with entries := none } = b₁ := by rw [← hnone]
      rw [hsame]
      exact ⟨hcoh, rfl⟩
    · have hread := hcoh.onPage hclean
      have hcontent : e₁.content { b₁ with entries := none } = e₁.content b₁ := by
        rw [content_of_none rfl, stored_of_read hread, Entries.ofList_eq_self hcoh.sorted]
      refine ⟨⟨hcontent.symm ▸ hcoh.sorted, fun hdirty => ?_, fun _ => hcontent.symm ▸ hread⟩, ?_⟩
      · simp [hclean] at hdirty
      · rw [hcontent]
        rfl

/-- Asking a page to leave memory keeps everything, whatever comes of it. -/
theorem keeps_evict (page : Page BlockRef) : Keeps limit e (e.evict page) := by
  unfold evict
  split
  · have hrun : Act.run (unload page.owner page.key.pageId) e = (_, _) := rfl
    exact (keeps_unload hrun).trans (keeps_record _)
  · exact .refl limit e

/-! ### Calls of a policy -/

omit [Std.IsLinearOrder K] in
theorem keeps_hitPage (policy : Nat) (page : Page BlockRef) :
    Keeps limit e (e.hitPage policy page) := by
  have hreport : Keeps limit e _ := keeps_record (.reported .hit policy page)
  dsimp only [hitPage]
  split
  · exact hreport
  · exact hreport.trans (keeps_setPolicy policy _)

omit [Std.IsLinearOrder K] in
theorem keeps_removePage (policy : Nat) (page : Page BlockRef) :
    Keeps limit e (e.removePage policy page) := by
  have hreport : Keeps limit e _ := keeps_record (.reported .remove policy page)
  dsimp only [removePage]
  split
  · exact hreport
  · exact hreport.trans (keeps_setPolicy policy _)

theorem keeps_addPage (policy : Nat) (page : Page BlockRef) :
    Keeps limit e (e.addPage policy page) := by
  have hreport : Keeps limit e _ := keeps_record (.reported .add policy page)
  dsimp only [addPage]
  split
  · exact hreport
  · split
    · exact (hreport.trans (keeps_setPolicy policy _)).trans (keeps_evict _)
    · exact hreport.trans (keeps_setPolicy policy _)

theorem keeps_touch (ref : BlockRef) (b : Block K V) : Keeps limit e (e.touch ref b) := by
  unfold touch
  split
  · exact keeps_hitPage _ _
  · exact keeps_addPage _ _

end Engine

end PagedMap
