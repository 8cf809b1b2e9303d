import Mathlib
import PagedMap.Proofs.Relics
import PagedMap.Proofs.Scanning

/-!
# Scans that outlive the contents of their maps

A scan goes on after its map was cleared or dropped, and reads the blocks that were given up.  What
it gives from there on are values that the map had after the scan was opened
(`Session.outlived_run`), as long as no block was given up that had been written to a page and
changed since.

Such a block loses its entries, and keeps the page that holds older ones.  The scan then gives a
value that was replaced before it was opened (`Session.superseded_value_given`).
-/

namespace PagedMap

variable {K V : Type}

namespace Engine

/-- The scan of a number draws on blocks of `refs`. -/
def Draws (allowed : Set V) (first last : Option K) (refs : Set BlockRef) (n : Nat)
    (e : Engine K V) : Prop :=
  ∃ s, e.scans[n]? = some s ∧ s.Draws allowed first last refs

variable {e e' : Engine K V} {m n : Nat} {state : MapState K} {ref : BlockRef} {b : Block K V}
  {allowed : Set V} {first last : Option K} {refs refs' : Set BlockRef}

/-! ### Blocks when they are given up -/

variable [Wire K] [Wire V] [LE K] [DecidableLE K] [Std.IsLinearOrder K] {limit : Option Nat}

/-- A listed block holds entries of its map. -/
theorem AllHold.of_lists (hs : e.AllHold limit) (hl : e.Lists m ref b) :
    e.Coherent b ∧ b.home.store = 0 ∧
      ∀ entry ∈ e.content b, Entries.value? (e.contents m) entry.1 = some entry.2 := by
  obtain ⟨state, hm, href, hb⟩ := hl
  have hh := hs.holds m state hm
  obtain ⟨s, hmem, rfl, c, hc, hcoh, hblock⟩ := hh.exists_of_mem href
  obtain rfl : b = c := Option.some.inj (hb.symm.trans hc)
  refine ⟨hcoh, ?_, fun entry hentry => ?_⟩
  · rw [← hh.store, ← hh.homes s hmem, hblock]
    rfl
  · refine (Entries.value?_eq_some_iff (hs.sorted_contents m)).2 (List.mem_flatMap.2 ⟨s, hmem, ?_⟩)
    rwa [hblock, Block.held_settled]

/-- What can be read from the listed blocks are values of the map. -/
theorem offers_listed (hs : e.AllHold limit) (ht : e.Tidy)
    (hallowed : ∀ k v, InRange first last k → Entries.value? (e.contents m) k = some v →
      v ∈ allowed) :
    Offers allowed first last (e.listed m) e := by
  rintro r ⟨b, hl⟩
  obtain ⟨hcoh, -, hcontent⟩ := hs.of_lists hl
  refine ⟨b, hl.blocks_eq, fun next hnext => ht.exists_next hl hnext,
    Or.inr ⟨hcoh, fun entry hentry => ?_⟩⟩
  obtain ⟨hmem, hrange⟩ := Entries.mem_between.1 hentry
  exact hallowed entry.1 entry.2 hrange (hcontent entry hmem)

/-- What can be read from the blocks that a map has given up are values of the map, if no block that
had been written had changed since. -/
theorem relics_give_up (hs : e.AllHold limit) (ht : e.Tidy) (hm : e.maps[m]? = some state)
    (he : e' = e.clear m ∨ e' = e.drop m)
    (hallowed : ∀ k v, InRange first last k → Entries.value? (e.contents m) k = some v →
      v ∈ allowed)
    (hwritten : ∀ r b, e.Lists m r b → b.dirty = true → b.page = noPage) :
    Relics limit allowed first last (e.listed m) e' := by
  obtain ⟨hstores, hvolume, hevents, -⟩ := confined_give_up hm he
  obtain ⟨-, -, hlists⟩ := tidy_give_up ht hm he
  have hread (store page : Nat) : e'.readPage store page = e.readPage store page := by
    rw [readPage, hstores, hvolume]
    rfl
  refine ⟨hs.roomy.congr hstores hvolume hevents, ?_, ?_⟩
  · rintro r ⟨b, hl⟩
    obtain ⟨hcoh, hstore, hcontent⟩ := hs.of_lists hl
    have href : r ∈ state.directory.refs := by
      obtain ⟨state', hm', href, -⟩ := id hl
      obtain rfl : state = state' := Option.some.inj (hm.symm.trans hm')
      exact href
    obtain ⟨released, hb'⟩ := blocks_give_up hm he href hl.blocks_eq
    refine ⟨_, hb', fun next hnext => ht.exists_next hl hnext, ?_⟩
    by_cases hdirty : b.dirty = true
    · exact Or.inl ⟨rfl, hwritten r b hl hdirty, hstore⟩
    · have hpage := hcoh.onPage (Bool.eq_false_iff.2 hdirty)
      have hsame : e'.content { b.forgotten with released } = e.content b := by
        rw [content_of_none rfl]
        exact (stored_of_read ((hread _ _).trans hpage)).trans (Entries.ofList_eq_self hcoh.sorted)
      refine Or.inr ⟨⟨hsame.symm ▸ hcoh.sorted, fun h => absurd h hdirty, fun _ => ?_⟩, ?_⟩
      · rw [hsame, hread]
        exact hpage
      · rw [hsame]
        intro entry hentry
        obtain ⟨hmem, hrange⟩ := Entries.mem_between.1 hentry
        exact hallowed entry.1 entry.2 hrange (hcontent entry hmem)
  · rintro r ⟨c, hc⟩ i b hl
    obtain ⟨hne, hl'⟩ := (hlists i r b).1 hl
    exact hne (ht.eq_of_lists hl' hc).1

/-! ### The scan -/

omit [Wire K] [Wire V] [LE K] [DecidableLE K] [Std.IsLinearOrder K] in
theorem Draws.mono (h : Draws allowed first last refs n e) (hrefs : refs ⊆ refs') :
    Draws allowed first last refs' n e := by
  obtain ⟨s, hs, hdraws⟩ := h
  exact ⟨s, hs, hdraws.range, fun r hr => hrefs (hdraws.queue r hr), hdraws.buffer⟩

omit [Wire K] [Wire V] [Std.IsLinearOrder K] in
/-- A scan that is opened draws on the blocks that its map lists. -/
theorem draws_openScan (ht : e.Tidy) (h : e.openScan m first last = .ok e') :
    Draws allowed first last (e'.listed m) e.scans.length e' := by
  obtain ⟨s, hscan, rfl⟩ := openScan_eq_ok h
  have hqueue := Roams.scan ht hscan
  unfold scan at hscan
  split at hscan
  · simp at hscan
  · obtain rfl := Except.ok.inj hscan
    exact ⟨_, List.getElem?_concat_length, ⟨rfl, rfl⟩, hqueue, by simp⟩

variable [Sized K] [Sized V] [Lossless K] [Lossless V] {q : Request K V} {a : Answer K V}
  {qs : List (Request K V)} {as : List (Answer K V)}

/-- While a request is served, a scan that draws on such blocks gives values that are allowed. -/
theorem Draws.serve (h : Draws allowed first last refs n e) (ho : Offers allowed first last refs e)
    (hr : e.Roomy limit) (hserve : e.serve q = (a, e')) (hw : e'.Within limit)
    (hnone : e'.Unnumbered) : Draws allowed first last refs n e' ∧
      (q = .next n → ∀ v, a = .value (some v) → v ∈ allowed) := by
  obtain ⟨s, hs, hdraws⟩ := h
  by_cases hnext : q = .next n
  · subst hnext
    obtain ⟨-, hlength, -⟩ := next_frame n e
    rw [serve_next] at hserve
    obtain ⟨rfl, rfl⟩ := Prod.mk.inj hserve
    rcases hrun : nextWithin (setScan n) e.blocks.length s e with ⟨value, s', e₁⟩
    have hstep : e.next n = (value, e₁.setScan n s') := by rw [Engine.next, hs]; simp only [hrun]
    rw [hstep] at hw hnone hlength ⊢
    have hw₁ : e₁.Within limit := hw
    have hnone₁ : e₁.Unnumbered := hnone
    obtain ⟨hgiven, hdraws'⟩ := ho.nextWithin hdraws hw₁ hr hnone₁ hrun
    refine ⟨⟨s', ?_, hdraws'⟩, fun _ v hv => hgiven v ?_⟩
    · refine List.getElem?_set_self ?_
      have hlt := (List.getElem?_eq_some_iff.1 hs).1
      rw [← hlength, setScan, List.length_set] at hlt
      exact hlt
    · rcases value with _ | _ | w
      · simp [Answer.ofStep] at hv
      · simp [Answer.ofStep] at hv
      · simpa [Answer.ofStep] using hv
  refine ⟨?_, fun hq => absurd hq hnext⟩
  by_cases hclose : q = .closeScan n
  · subst hclose
    obtain ⟨-, rfl⟩ := Prod.mk.inj hserve
    exact ⟨s.ended, by simp [closeScan, hs], hdraws.ended⟩
  · obtain ⟨-, -, hsame⟩ := serve_frame e q
    rw [hserve] at hsame
    exact ⟨s, (hsame n (List.getElem?_eq_some_iff.1 hs).1 hnext hclose).trans hs, hdraws⟩

omit [Std.IsLinearOrder K] [Lossless K] [Lossless V] in
theorem openScan_of_serve (h : e.serve (.openScan m first last) = (.done, e')) :
    m < e.maps.length ∧ e.openScan m first last = .ok e' := by
  unfold Engine.serve at h
  split at h
  · rename_i htarget
    refine ⟨by simpa [Request.target?] using htarget, ?_⟩
    rcases hopen : e.openScan m first last with cause | e₁ <;> simp only [perform, hopen] at h
    · simp at h
    · rw [(Prod.mk.inj h).2]
  · simp at h

theorem unnumbered_serveAll (hs : e.AllHold limit) (hrun : e.serveAll qs = (as, e'))
    (hw : e'.Within limit) (hnone : e'.Unnumbered) : e.Unnumbered := by
  refine not_not.1 fun hp => ?_
  obtain ⟨-, hkept⟩ := serveAll_induct (P := fun e => ¬ e.Unnumbered)
    (fun _ _ _ _ _ _ hserved hp hnone => hp (hnone.of_pages hserved.pages)) hs hp hrun hw
  exact hkept hnone

/-- While its map keeps its blocks, a scan draws on the blocks that the map lists. -/
theorem Draws.serveAll (hs : e.AllHold limit) (ht : e.Tidy)
    (h : Draws allowed first last (e.listed m) n e) (hqs : ∀ q ∈ qs, q ≠ .clear m ∧ q ≠ .drop m)
    (hallowed : ∀ j ≤ qs.length, ∀ k v, InRange first last k →
      Entries.value? (e.contentsAfter m qs j) k = some v → v ∈ allowed)
    (hrun : e.serveAll qs = (as, e')) (hw : e'.Within limit) (hnone : e'.Unnumbered) :
    e'.Tidy ∧ Draws allowed first last (e'.listed m) n e' := by
  induction qs generalizing e as with
  | nil =>
    obtain ⟨rfl, rfl⟩ := Prod.mk.inj hrun
    exact ⟨ht, h⟩
  | cons q qs ih =>
    obtain ⟨a, e₁, as', hserve, hrest, rfl⟩ := serveAll_cons hrun
    have hw₁ := hw.of_suffix (suffix_serveAll hrest)
    have hs₁ := (serve_spec hs hw₁ hserve).allHold
    obtain ⟨ht₁, -, hlisted⟩ := tidy_serve ht hs.stores_pos hserve
    obtain ⟨⟨hclear, hdrop⟩, hrestqs⟩ := List.forall_mem_cons.1 hqs
    have hoffers := offers_listed hs ht (hallowed 0 (Nat.zero_le _))
    obtain ⟨hdraws, -⟩ :=
      h.serve hoffers hs.roomy hserve hw₁ (unnumbered_serveAll hs₁ hrest hw hnone)
    refine ih hs₁ ht₁ (hdraws.mono (hlisted m hclear hdrop)) hrestqs (fun j hj => ?_) hrest
    have hlater := hallowed (j + 1) (Nat.succ_le_succ hj)
    rw [contentsAfter, List.take_succ_cons, Engine.serveAll] at hlater
    simp only [hserve] at hlater
    exact hlater

/-- A scan that draws on blocks that were given up only gives values that are allowed. -/
theorem Relics.serveAll (h : Relics limit allowed first last refs e) (hs : e.AllHold limit)
    (ht : e.Tidy) (hdraws : Draws allowed first last refs n e) (hrun : e.serveAll qs = (as, e'))
    (hw : e'.Within limit) (hnone : e'.Unnumbered) :
    ∀ i v, Gives n qs as i (some v) → v ∈ allowed := by
  induction qs generalizing e as with
  | nil =>
    intro i v hi
    simp [Gives] at hi
  | cons q qs ih =>
    obtain ⟨a, e₁, as', hserve, hrest, rfl⟩ := serveAll_cons hrun
    have hw₁ := hw.of_suffix (suffix_serveAll hrest)
    have hs₁ := (serve_spec hs hw₁ hserve).allHold
    have hnone₁ := unnumbered_serveAll hs₁ hrest hw hnone
    obtain ⟨hdraws₁, hgiven⟩ := hdraws.serve h.offers h.roomy hserve hw₁ hnone₁
    have heffect := effect_call ht hs.stores_pos (.request q)
    rw [call, hserve] at heffect
    have h₁ := h.effect heffect ht (by simp) hw₁ hnone₁
    intro i v hi
    cases i with
    | zero => exact hgiven (Option.some.inj hi.1) v (Option.some.inj hi.2)
    | succ i => exact ih h₁ hs₁ (tidy_serve ht hs.stores_pos hserve).1 hdraws₁ hrest i v hi

end Engine

namespace Session

variable [Wire K] [Wire V] [LE K] [DecidableLE K] [Sized K] [Sized V]

theorem tidy_run {s : Session K V} (cs : List (Command K V)) (ht : s.engine.Tidy)
    (hstores : 0 < s.engine.stores.length) :
    (s.run cs).engine.Tidy ∧ 0 < (s.run cs).engine.stores.length := by
  induction cs generalizing s with
  | nil => exact ⟨ht, hstores⟩
  | cons c cs ih =>
    suffices hstep : (s.step c).2.engine.Tidy ∧ 0 < (s.step c).2.engine.stores.length from
      ih hstep.1 hstep.2
    rcases s.step_cases c with
      ⟨q, -, h⟩ | ⟨m, n, state, x, -, hm, -, h⟩ | ⟨policies, e, he, h⟩ | h <;> rw [h]
    · obtain ⟨htidy, hlt, -⟩ := (Engine.effect_call ht hstores (.request q)).tidy ht hstores
      exact ⟨htidy, hlt⟩
    · have heffect : Engine.Effect s.engine (.boot m x.snapshot) _ := .boot hm
      obtain ⟨htidy, hlt, -⟩ := heffect.tidy ht hstores
      exact ⟨htidy, hlt⟩
    · obtain ⟨first, rest, f, volume, -, -, -, rfl⟩ := Engine.reopened_eq_some he
      exact ⟨fun m state hm => by simp at hm, Nat.succ_pos _⟩
    · exact ⟨ht, hstores⟩

variable [Std.IsLinearOrder K] [Lossless K] [Lossless V]

variable {limit : Option Nat} {m : Nat} {first last : Option K} {policies : List (Policy BlockRef)}
  {store : Store K V} {volume : Volume} {before : List (Command K V)} {s : Session K V}
  {qs₁ qs₂ : List (Request K V)} {q : Request K V} {as₁ as₂ : List (Answer K V)}
  {e₁ e₂ e₃ : Engine K V}

/-- A scan is opened, and after some requests its map is cleared or dropped.  If no block of the map
that was written to a page has changed since, then every value that the scan gives from there on was
the value of a key of its range after some of these requests, whatever is requested later. -/
theorem outlived_run (hready : store.Ready limit volume)
    (hrun : (start policies store volume).run before = s)
    (hopen : s.engine.serve (.openScan m first last) = (.done, e₁))
    (hqs : ∀ q ∈ qs₁, q ≠ .clear m ∧ q ≠ .drop m) (hserve₁ : e₁.serveAll qs₁ = (as₁, e₂))
    (hq : q = .clear m ∨ q = .drop m)
    (hwritten : ∀ r b, e₂.Lists m r b → b.dirty = true → b.page = noPage)
    (hserve₂ : (e₂.serve q).2.serveAll qs₂ = (as₂, e₃)) (hw : e₃.Within limit)
    (hnone : e₃.Unnumbered) :
    ∀ i v, Engine.Gives s.engine.scans.length qs₂ as₂ i (some v) → ∃ k, InRange first last k ∧
      ∃ j ≤ qs₁.length, Entries.value? (e₁.contentsAfter m qs₁ j) k = some v := by
  subst hrun
  set e₀ := ((start policies store volume).run before).engine with he₀
  rcases hcleared : e₂.serve q with ⟨a, e'⟩
  rw [hcleared] at hserve₂
  have hw' := hw.of_suffix (Engine.suffix_serveAll hserve₂)
  have hw₂ := hw'.of_suffix (Engine.suffix_serve hcleared)
  have hw₁ := hw₂.of_suffix (Engine.suffix_serveAll hserve₁)
  have hs₀ := (goes_run (documented_start hready)
    (hw₁.of_suffix (Engine.suffix_serve hopen))).documented.engine
  have hstart : (start policies store volume).engine.Tidy := fun m state hm => by
    simp [start, Engine.start] at hm
  have ht₀ : e₀.Tidy := (tidy_run before hstart Nat.one_pos).1
  have hs₁ := (Engine.serve_spec hs₀ hw₁ hopen).allHold
  have ht₁ := (Engine.tidy_serve ht₀ hs₀.stores_pos hopen).1
  obtain ⟨hm₀, hok⟩ := Engine.openScan_of_serve hopen
  obtain ⟨hs₂, hm₂⟩ := Engine.serveAll_induct (P := fun e => m < e.maps.length)
    (fun _ _ _ _ _ _ hserved hlt => hlt.trans_le hserved.length_le) hs₁
    (hm₀.trans_le (Engine.serve_spec hs₀ hw₁ hopen).length_le) hserve₁ hw₂
  let allowed : Set V := {v | ∃ k, InRange first last k ∧
    ∃ j ≤ qs₁.length, Entries.value? (e₁.contentsAfter m qs₁ j) k = some v}
  have hdraws₁ : Engine.Draws allowed first last (e₁.listed m) e₀.scans.length e₁ :=
    Engine.draws_openScan ht₀ hok
  -- the scan up to where the blocks are given up
  have hserved := Engine.serve_spec hs₂ hw' hcleared
  have hs' := hserved.allHold
  have hnone' := Engine.unnumbered_serveAll hs' hserve₂ hw hnone
  have hnone₂ := hnone'.of_pages hserved.pages
  obtain ⟨ht₂, hdraws₂⟩ := hdraws₁.serveAll hs₁ ht₁ hqs
    (fun j hj k v hrange hvalue => ⟨k, hrange, j, hj, hvalue⟩) hserve₁ hw₂ hnone₂
  -- the scan from there on
  have hgiven : e' = e₂.clear m ∨ e' = e₂.drop m := by
    rcases hq with rfl | rfl <;>
      rw [Engine.serve, if_pos (by simpa [Request.target?] using hm₂)] at hcleared
    · exact Or.inl (Prod.mk.inj hcleared).2.symm
    · exact Or.inr (Prod.mk.inj hcleared).2.symm
  have hcontents : e₂.contents m = e₁.contentsAfter m qs₁ qs₁.length := by
    rw [Engine.contentsAfter, List.take_length, hserve₁]
  have hrelics : Engine.Relics limit allowed first last (e₂.listed m) e' :=
    Engine.relics_give_up hs₂ ht₂ (List.getElem?_eq_getElem hm₂) hgiven
    (fun k v hrange hvalue => ⟨k, hrange, _, le_rfl, hcontents ▸ hvalue⟩) hwritten
  obtain ⟨hdraws', -⟩ := hdraws₂.serve (Engine.offers_listed hs₂ ht₂
    fun k v hrange hvalue => ⟨k, hrange, _, le_rfl, hcontents ▸ hvalue⟩) hs₂.roomy
    hcleared hw' hnone'
  exact hrelics.serveAll hs' (Engine.tidy_serve ht₂ hs₂.stores_pos hcleared).1 hdraws'
    hserve₂ hw hnone

/-- The block of the keys 6 and 8 was written before it is given up.  The scan reads it from its
page, whatever is put under these keys since. -/
theorem outlived_run_cleared :
    let sizing : Sizing := { maxBlockSize := 12, entryOverhead := 2, blockOverhead := 0 }
    let before : List (Command (Shape.uint .w8).Datum (Shape.uint .w8).Datum) :=
      [.request (.make sizing 0), .request (.put 0 2#8 0x12#8), .request (.put 0 4#8 0x14#8),
        .request (.put 0 6#8 0x16#8), .request (.put 0 8#8 0x18#8)]
    let qs₁ : List (Request (Shape.uint .w8).Datum (Shape.uint .w8).Datum) :=
      [.next 0, .put 0 8#8 0x28#8, .checkpoint 0]
    let qs₂ : List (Request (Shape.uint .w8).Datum (Shape.uint .w8).Datum) :=
      [.put 0 6#8 0x36#8, .next 0, .checkpoint 0, .next 0, .next 0]
    let s := (start [.clock (.empty 1)] .inMemory {}).run before
    let opened := s.engine.serve (.openScan 0 (some 4#8) none)
    let served := opened.2.serveAll qs₁
    let outlived := (served.2.serve (.clear 0)).2.serveAll qs₂
    Engine.Gives 0 qs₂ outlived.1 3 (some 0x28#8) ∧ ∃ k : (Shape.uint .w8).Datum,
      InRange (K := (Shape.uint .w8).Datum) (some 4#8) none k ∧
        ∃ j ≤ qs₁.length, Entries.value? (opened.2.contentsAfter 0 qs₁ j) k = some 0x28#8 := by
  intro sizing before qs₁ qs₂ s opened served outlived
  have hscans : s.engine.scans.length = 0 := by decide +kernel
  have hdone : opened.1 = .done := by decide +kernel
  have hblocks : ∀ state ∈ served.2.maps[0]?, ∀ r ∈ state.directory.refs,
      ∀ b ∈ served.2.blocks[r]?, b.dirty = true → b.page = noPage := by decide +kernel
  have hnone : outlived.2.Unnumbered := by decide +kernel
  have hanswer : outlived.1[3]? = some (.value (some 0x28#8)) := by decide +kernel
  have hready : (Store.inMemory (K := (Shape.uint .w8).Datum) (V := (Shape.uint .w8).Datum)).Ready
      none {} := trivial
  have hrun : (start [.clock (.empty 1)] .inMemory {}).run before = s := rfl
  have hopen : s.engine.serve (.openScan 0 (some 4#8) none) = (opened.1, opened.2) :=
    Prod.mk.eta.symm
  have hserve₁ : opened.2.serveAll qs₁ = (served.1, served.2) := Prod.mk.eta.symm
  have hserve₂ : (served.2.serve (.clear 0)).2.serveAll qs₂ = (outlived.1, outlived.2) :=
    Prod.mk.eta.symm
  clear_value s opened served outlived
  rw [hdone] at hopen
  have hw : outlived.2.Within none := Engine.within_none _
  have hgives : Engine.Gives 0 qs₂ outlived.1 3 (some 0x28#8) := ⟨rfl, hanswer⟩
  refine ⟨hgives, outlived_run hready hrun hopen (by simp [qs₁]) hserve₁ (Or.inl rfl) ?_
    hserve₂ hw hnone 3 0x28#8 (hscans.symm ▸ hgives)⟩
  rintro r b ⟨state, hm, hr, hb⟩
  exact hblocks state hm r hr b hb

/-- A block that was written to a page and changed since may give a value again that was replaced
before the scan was opened. -/
theorem superseded_value_given :
    let sizing : Sizing := { maxBlockSize := 100, entryOverhead := 2, blockOverhead := 0 }
    let before : List (Command (Shape.uint .w8).Datum (Shape.uint .w8).Datum) :=
      [.request (.make sizing 0), .request (.put 0 1#8 0x0a#8), .request (.checkpoint 0),
        .request (.put 0 1#8 0x0b#8)]
    let s := (start [.clock (.empty 8)] .inMemory {}).run before
    let opened := s.engine.serve (.openScan 0 (some 1#8) (some 1#8))
    let cleared := opened.2.serve (.clear 0)
    opened.1 = .done ∧ Engine.Gives 0 [.next 0] (cleared.2.serveAll [.next 0]).1 0 (some 0x0a#8) ∧
      ∀ k, ∀ j ≤ ([] : List (Request (Shape.uint .w8).Datum (Shape.uint .w8).Datum)).length,
        Entries.value? (opened.2.contentsAfter 0 [] j) k ≠ some 0x0a#8 := by
  intro sizing before s opened cleared
  have hdone : opened.1 = .done := by decide +kernel
  have hanswer : (cleared.2.serveAll [.next 0]).1[0]? = some (.value (some 0x0a#8)) := by
    decide +kernel
  have hcontents : ∀ entry ∈ opened.2.contentsAfter 0 [] 0, @id (BitVec 8) entry.2 ≠ 0x0a#8 := by
    decide +kernel
  refine ⟨hdone, ⟨rfl, hanswer⟩, fun k j hj hvalue => ?_⟩
  obtain rfl : j = 0 := Nat.le_zero.1 hj
  exact hcontents _ (Entries.mem_of_value?_eq_some hvalue) rfl

end Session

end PagedMap
