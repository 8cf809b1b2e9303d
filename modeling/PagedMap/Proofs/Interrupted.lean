import Mathlib
import PagedMap.Proofs.Failure
import PagedMap.Proofs.Isolation

/-!
# Scans that cannot read a block

Beside a scan that is asked for one value after the other nothing else may happen.  If no page store
refuses to read a page, the scan comes to all blocks of the layout and gives their values in its
range.  Otherwise it comes to the blocks before the first one that cannot be read, gives their
values, fails once, and gives nothing any more (`Engine.Halts`).  A lookup of a range reads the same
blocks, but its values are lost if it fails.

Each time that the scan is asked for a value it comes to some of the blocks that it has still to
come to (`Engine.Advance`), and so the whole scan follows by induction over the requests
(`Engine.serveAll_next`).  Whether a page store refuses to read a page depends on what it was told
to refuse only (`Engine.Obliging`), so a scan that starts after the page store recovered is
complete.

Main statement: `Session.interrupted_run`.
-/

namespace PagedMap

variable {K V : Type}

/-! ### Stores that refuse to read nothing -/

namespace Store

variable [Wire K] [Wire V]

theorem loads_create (s : Store K V) (v : Volume) (entries : List (K × V)) :
    (s.create v entries).2.1.faults.loads = s.faults.loads := by
  dsimp only [create, append]
  split
  · rfl
  · split <;> rfl

theorem refused_load (s : Store K V) (v : Volume) (page : Nat) :
    (s.load v page).2.faults.loads.refused = s.faults.loads.refused := by
  unfold load
  split <;> rfl

end Store

namespace Engine

/-- No page store is to refuse to read a page. -/
def Obliging (e : Engine K V) : Prop := ∀ s ∈ e.stores, ∀ i, s.faults.loads.refused i = false

variable {e e' e'' : Engine K V} {ref : BlockRef} {b : Block K V}

theorem Obliging.set {s s' : Store K V} {store : Nat} (h : e.Obliging)
    (hs : e.stores[store]? = some s) (hsame : s'.faults.loads.refused = s.faults.loads.refused)
    (hstores : e'.stores = e.stores.set store s') : e'.Obliging := by
  intro x hx
  rw [hstores] at hx
  rcases List.mem_or_eq_of_mem_set hx with hx | rfl
  · exact h x hx
  · rw [hsame]
    exact h s (List.mem_of_getElem? hs)

variable [Wire K] [Wire V]

theorem Obliging.loadPage {store page : Nat} {r : Except StoreError (List (K × V))} (h : e.Obliging)
    (hload : e.loadPage store page = (r, e')) : e'.Obliging := by
  unfold Engine.loadPage at hload
  split at hload <;> obtain ⟨-, rfl⟩ := Prod.mk.inj hload
  · exact h
  · rename_i s hs
    exact h.set hs (s.refused_load _ _) rfl

theorem Obliging.createPage {store : Nat} {entries : List (K × V)} {r : Except StoreError Nat}
    (h : e.Obliging) (hcreate : e.createPage store entries = (r, e')) : e'.Obliging := by
  unfold Engine.createPage at hcreate
  split at hcreate <;> obtain ⟨-, rfl⟩ := Prod.mk.inj hcreate
  · exact h
  · rename_i s hs
    exact h.set hs (congrArg _ (s.loads_create _ _)) rfl

theorem Obliging.persist {r : Except MapError Unit} (h : e.Obliging)
    (hpersist : Act.run (persist ref) e = (r, e')) : e'.Obliging := by
  rcases persist_cases hpersist with
    ⟨-, rfl, -⟩ | ⟨b, es, -, -, -, ⟨cause, hcreate, -⟩ | ⟨page, e₁, hcreate, -, rfl⟩⟩
  · exact h
  · exact h.createPage hcreate
  · have hcreated := h.createPage hcreate
    exact hcreated

theorem Obliging.evict (h : e.Obliging) (page : Page BlockRef) : (e.evict page).Obliging := by
  unfold Engine.evict
  split
  · rcases hunload : Act.run (unload page.owner page.key.pageId) e with ⟨r, e₁⟩
    show e₁.Obliging
    rcases unload_cases hunload with ⟨rfl, -⟩ |
      ⟨b, es, -, -, ⟨cause, hpersist, -⟩ | ⟨e₂, hpersist, -, rfl⟩⟩
    · exact h
    · exact Obliging.persist (e := e.setBlock page.owner { b with tracked := false }) h hpersist
    · have hpersisted :=
        Obliging.persist (e := e.setBlock page.owner { b with tracked := false }) h hpersist
      exact hpersisted
  · exact h

theorem Obliging.touch (h : e.Obliging) (ref : BlockRef) (b : Block K V) :
    (e.touch ref b).Obliging := by
  unfold Engine.touch
  split
  · dsimp only [hitPage]
    split <;> exact h
  · dsimp only [addPage]
    split
    · exact h
    · split
      · refine Obliging.evict ?_ _
        exact h
      · exact h

variable [LE K] [DecidableLE K]

theorem Obliging.access {r : Except MapError (Entries K V)} (h : e.Obliging)
    (haccess : Act.run (access ref b) e = (r, e')) : e'.Obliging := by
  rcases access_cases haccess with ⟨es, -, -, rfl⟩ | ⟨-, ⟨c, hload, -⟩ | ⟨xs, e₁, hload, -, rfl⟩⟩
  · exact h
  · exact h.loadPage hload
  · have hloaded := h.loadPage hload
    exact hloaded

omit [LE K] [DecidableLE K] in
/-- A page that can be read is read if no page store refuses to. -/
theorem Obliging.loadPage_eq {store page : Nat} {es : List (K × V)} (h : e.Obliging)
    (hread : e.readPage store page = .ok es) : (e.loadPage store page).1 = .ok es := by
  cases hs : e.stores[store]? with
  | none => simp [readPage, hs] at hread
  | some s =>
    have hnow : s.faults.loads.now = false := h s (List.mem_of_getElem? hs) _
    have hpage : s.read e.volume page = .ok es := by simpa only [readPage, hs] using hread
    simp [Engine.loadPage, hs, Store.load, hnow, hpage]

/-! ### Reading one block -/

/-- From one engine to the other no page store refused to read a page, nor is one more to refuse
it. -/
structure Calm (e e' : Engine K V) : Prop where
  refusedLoads : e'.refusedLoads = e.refusedLoads
  obliging : e.Obliging → e'.Obliging

/-- From `e` to `e'` a page store refused once to read a page, and this was the last that happened:
the page is that of the block of a stretch, which is not in memory. -/
def Stops (e e' : Engine K V) (x : Stretch K V) : Prop :=
  ∃ b ∈ e'.blocks[x.ref]?, b.entries = none ∧ e'.refusedLoads = e.refusedLoads + 1 ∧
    e'.events.head? = some (.pageLoaded b.home.store b.page (.error (.io .injected)))

omit [Wire K] [Wire V] [LE K] [DecidableLE K] in
theorem Calm.trans (h : Calm e e') (h' : Calm e' e'') : Calm e e'' :=
  ⟨h'.refusedLoads.trans h.refusedLoads, fun he => h'.obliging (h.obliging he)⟩

omit [Wire K] [Wire V] [LE K] [DecidableLE K] in
theorem Calm.stops {x : Stretch K V} (h : Calm e e') (h' : Stops e' e'' x) : Stops e e'' x := by
  obtain ⟨b, hb, hnone, hcount, hlast⟩ := h'
  exact ⟨b, hb, hnone, h.refusedLoads ▸ hcount, hlast⟩

omit [LE K] [DecidableLE K] in
theorem calm_touch (ref : BlockRef) (b : Block K V) (e : Engine K V) : Calm e (e.touch ref b) :=
  ⟨(silent_touch ref b e).refusedLoads_eq, fun h => h.touch ref b⟩

/-- Where the entries of a block were given, no page store refused to read their page. -/
theorem calm_access {es : Entries K V} (h : Act.run (access ref b) e = (.ok es, e')) :
    Calm e e' := by
  refine ⟨?_, fun he => he.access h⟩
  rcases access_cases h with ⟨es', -, -, rfl⟩ | ⟨-, ⟨c, -, hr⟩ | ⟨xs, e₁, hload, -, rfl⟩⟩
  · rfl
  · simp at hr
  · show e₁.refusedLoads = e.refusedLoads
    rcases events_loadPage hload with hevents | hevents <;> rw [refusedLoads, hevents]
    · rfl
    · exact List.countP_cons_of_neg (by simp [Event.isRefusedLoad, Except.map])

variable [Lossless K] [Lossless V] [Std.IsLinearOrder K]

variable {limit : Option Nat} {m : Nat} {state : MapState K} {x : Stretch K V}
  {first last : Option K}

/-- A block of a map gives its values in a range, or its page could not be read. -/
theorem valuesIn_reads {e₀ : Engine K V} {r : Except MapError (List V × Option BlockRef)}
    (hk : Keeps limit e e₀) (hs : e.AllHold limit) (hw : e'.Within limit)
    (hm : e.maps[m]? = some state) (hmem : x ∈ e.layout m)
    (h : Act.run (valuesIn x.ref first last) e₀ = (r, e')) :
    r = .error (.storage (.io .injected)) ∧ x.block.overlaps first last = true ∧ Stops e₀ e' x ∧
        ¬ e₀.Obliging ∨
      r = .ok (valuesOf [x] first last, x.block.next) ∧ Calm e₀ e' := by
  have hk₁ : Keeps limit e₀ e' := keeps_valuesIn h
  have hw₀ := hw.of_suffix hk₁.events
  have hs₀ := hk.allHold hw₀ hs
  have hm₀ : e₀.maps[m]? = some state := hk.maps ▸ hm
  have hmem₀ : x ∈ e₀.layout m := hk.layout hw₀ hs m ▸ hmem
  obtain ⟨b, hb, hcoh, hxb⟩ := (hs₀.holds m state hm₀).shows x hmem₀
  have hoverlaps : b.overlaps first last = x.block.overlaps first last := by rw [hxb]; rfl
  have hvalues : valuesOf [x] first last = (Entries.between x.block.held first last).map (·.2) := by
    rw [valuesOf, Layout.contents_cons]
    simp [Layout.contents]
  obtain ⟨-, ⟨rfl, hunread⟩ | rfl⟩ := valuesIn_of_mem hk hs hw hm hmem h
  · left
    rcases valuesIn_at hb h with ⟨-, hr, -⟩ | ⟨hreaches, ⟨cause, haccess, hr⟩ | ⟨es, e₁, -, hr, -⟩⟩
    · simp at hr
    · obtain ⟨hnone, c, rfl, hload⟩ := access_error haccess
      obtain rfl := MapError.storage.inj (Except.error.inj hr)
      obtain ⟨hblocks, -, -, hfailed⟩ := loadPage_cases hload
      have hread := hcoh.read_of_none hnone
      have hlt : b.home.store < e₀.stores.length := by
        by_contra hge
        rw [readPage, List.getElem?_eq_none (Nat.not_lt.1 hge)] at hread
        simp at hread
      obtain ⟨hevents, -⟩ := hfailed _ rfl hlt
      refine ⟨rfl, hoverlaps.symm.trans hreaches,
        ⟨b, hblocks ▸ hb, hnone, ?_, by rw [hevents]; rfl⟩, fun hobliging => ?_⟩
      · rw [refusedLoads, hevents, List.countP_cons_of_pos rfl]
        rfl
      · have hok := hobliging.loadPage_eq hread
        rw [hload] at hok
        simp at hok
    · simp at hr
  · right
    refine ⟨by rw [hvalues], ?_⟩
    rcases valuesIn_at hb h with ⟨-, -, rfl⟩ | ⟨-, ⟨cause, -, hr⟩ | ⟨es, e₁, haccess, -, rfl⟩⟩
    · exact ⟨rfl, id⟩
    · simp at hr
    · exact (calm_access haccess).trans (calm_touch _ _ _)

/-! ### Going through the blocks -/

variable {s s' : Scan K V} {t pre post : Layout K V} {n fuel : Nat} {given : List V}
  {failure : Option MapError}

omit [Wire K] [Wire V] [Lossless K] [Lossless V] [Std.IsLinearOrder K] in
theorem valuesOf_append (pre post : Layout K V) (first last : Option K) :
    valuesOf (pre ++ post) first last = valuesOf pre first last ++ valuesOf post first last := by
  rw [valuesOf, Layout.contents_append, Entries.between_append, List.map_append]
  rfl

/-- The blocks of `t` were gone through: all of them, and these values were given, or those before a
block that could not be read, and then there was a failure. -/
inductive Halts (t : Layout K V) (first last : Option K) (e e' : Engine K V) :
    List V → Option MapError → Prop
  | ended (hcalm : Calm e e') : Halts t first last e e' (valuesOf t first last) none
  | failed {pre post : Layout K V} {x : Stretch K V} (ht : t = pre ++ x :: post)
      (hx : x.block.overlaps first last = true) (hstops : Stops e e' x) (hrefuses : ¬ e.Obliging) :
      Halts t first last e e' (valuesOf pre first last) (some (.storage (.io .injected)))

omit [Wire K] [Wire V] [Lossless K] [Lossless V] [Std.IsLinearOrder K] in
/-- The blocks before were gone through as well. -/
theorem Halts.prepend (pre : Layout K V) (h : Halts post first last e' e'' given failure)
    (hcalm : Calm e e') :
    Halts (pre ++ post) first last e e'' (valuesOf pre first last ++ given) failure := by
  cases h with
  | ended hcalm' =>
    rw [← valuesOf_append]
    exact .ended (hcalm.trans hcalm')
  | failed ht hx hstops hrefuses =>
    rw [← valuesOf_append]
    exact .failed (by rw [ht, List.append_assoc]) hx (hcalm.stops hstops)
      fun hobliging => hrefuses (hcalm.obliging hobliging)

/-- Where a scan comes to next: it passes over some blocks, comes to one and reads it, or it is
over. -/
theorem visit?_reads (hs : e.AllHold limit) (hm : e.maps[m]? = some state)
    (ha : s.Awaits (e.layout m) t) :
    s.visit? e = none ∧ valuesOf t s.first s.last = [] ∨
      ∃ skipped x post s', t = skipped ++ x :: post ∧ valuesOf skipped s.first s.last = [] ∧
        s.visit? e = some (x.ref, s') ∧
        ∀ e₀ r e₁, Keeps limit e e₀ → Act.run (valuesIn x.ref s'.first s'.last) e₀ = (r, e₁) →
          e₁.Within limit →
          r = .error (.storage (.io .injected)) ∧ x.block.overlaps s.first s.last = true ∧
              Stops e₀ e₁ x ∧ ¬ e₀.Obliging ∨
            ∃ next, r = .ok (valuesOf [x] s.first s.last, next) ∧ Calm e₀ e₁ ∧
              (s'.filled e₁ (valuesOf [x] s.first s.last) next).first = s.first ∧
              (s'.filled e₁ (valuesOf [x] s.first s.last) next).last = s.last ∧
              (s'.filled e₁ (valuesOf [x] s.first s.last) next).Awaits (e₁.layout m) post := by
  have hh := hs.holds m state hm
  have hnil {skipped : Layout K V} (hsub : skipped ⊆ t)
      (hnot : ∀ y ∈ skipped, y.block.overlaps s.first s.last = false) :
      valuesOf skipped s.first s.last = [] := by
    have hskip := between_skip (t := [])
      (fun y hy => hh.tiled.blocks y (ha.suffix.subset (hsub hy))) hnot
    rw [List.append_nil] at hskip
    rw [valuesOf, hskip]
    rfl
  rcases ha.visit? hh.tiled hh.shows with ⟨hvisit, hnot⟩ |
    ⟨skipped, x, post, s', rfl, hskipped, hvisit, hfirst, hlast, hawaits⟩
  · exact Or.inl ⟨hvisit, hnil (List.Subset.refl _) hnot⟩
  · refine Or.inr ⟨skipped, x, post, s', rfl, hnil (List.subset_append_left _ _) hskipped, hvisit,
      fun e₀ r e₁ hk₀ hrun hw => ?_⟩
    have hmem := ha.suffix.subset (List.mem_append_right skipped List.mem_cons_self)
    have hk : Keeps limit e e₁ := hk₀.trans (keeps_valuesIn hrun)
    rw [hfirst, hlast] at hrun
    rcases valuesIn_reads hk₀ hs hw hm hmem hrun with hfailed | ⟨rfl, hcalm⟩
    · exact Or.inl hfailed
    · refine Or.inr ⟨_, rfl, hcalm, hfirst, hlast, ?_⟩
      rw [hk.layout hw hs m]
      exact hawaits e₁ _ fun y hy => hk.shows hw hs.roomy (hh.shows y hy)

/-- A scan to its end gives the values that it read before and those of the blocks that it goes
through, or it fails. -/
theorem valuesWithin_halts {r : Except MapError (List V)} (hs : e.AllHold limit)
    (hw : e'.Within limit) (hm : e.maps[m]? = some state) (ha : s.Awaits (e.layout m) t)
    (hfuel : t.length ≤ fuel) (h : Act.run (valuesWithin fuel s) e = (r, e')) :
    ∃ given failure, Halts t s.first s.last e e' given failure ∧
      r = failure.elim (.ok (s.buffer ++ given)) .error := by
  -- what is left of the layout gets shorter with every block, so the fuel outlasts it
  induction fuel using Nat.strong_induction_on generalizing s t e r with
  | _ fuel ih =>
    rcases valuesWithin_cases h with ⟨hover, rfl, rfl⟩ | ⟨left, ref, s₁, rfl, hvisit, hread⟩
    · exact ⟨_, none, .ended ⟨rfl, id⟩, by simp [valuesOf_of_over hs hm ha hfuel hover]⟩
    rcases visit?_reads hs hm ha with ⟨hvisit', -⟩ |
      ⟨skipped, x, post, s', rfl, hskipped, hvisit', hstep⟩ <;> rw [hvisit] at hvisit'
    · simp at hvisit'
    obtain ⟨rfl, rfl⟩ := Prod.mk.inj (Option.some.inj hvisit')
    rcases hread with ⟨cause, hvalues, rfl⟩ | ⟨values, next, e₁, rest, hvalues, hrest, rfl⟩
    · rcases hstep _ _ _ (.refl limit _) hvalues hw with ⟨hr, hx, hstops, hrefuses⟩ | ⟨next, hr, -⟩
      · obtain rfl := Except.error.inj hr
        exact ⟨_, _, .failed rfl hx hstops hrefuses, rfl⟩
      · simp at hr
    · have hk : Keeps limit e e₁ := keeps_valuesIn hvalues
      have hkrest : Keeps limit e₁ e' := keeps_valuesWithin hrest
      have hw₁ := hw.of_suffix hkrest.events
      obtain ⟨hr, -⟩ | ⟨next', hr, hcalm, hfirst, hlast, hawaits⟩ :=
        hstep _ _ _ (.refl limit _) hvalues hw₁
      · simp at hr
      obtain ⟨rfl, rfl⟩ := Prod.mk.inj (Except.ok.inj hr)
      have hlength : post.length ≤ left := by
        simp only [List.length_append, List.length_cons] at hfuel
        omega
      obtain ⟨given, failure, hhalts, rfl⟩ :=
        ih left left.lt_succ_self (hk.allHold hw₁ hs) (hk.maps ▸ hm) hawaits hlength hrest
      rw [hfirst, hlast] at hhalts
      have hall := hhalts.prepend (skipped ++ [x]) hcalm
      rw [List.append_assoc, valuesOf_append, hskipped, List.nil_append] at hall
      exact ⟨_, failure, hall, by cases failure <;> rfl⟩

/-! ### The next value -/

/-- What comes of asking a scan for a value, where it has still to come to the blocks of `t`: a
value of the blocks that it comes to, or the end, or a failure, after which the scan is at its end
as well. -/
def Advance (m : Nat) (t : Layout K V) (s s' : Scan K V) (e e' : Engine K V) :
    Option (Except MapError V) → Prop
  | some (.ok v) =>
    Calm e e' ∧ s'.first = s.first ∧ s'.last = s.last ∧ ∃ pre post, t = pre ++ post ∧
      s.buffer ++ valuesOf pre s.first s.last = v :: s'.buffer ∧ s'.Awaits (e'.layout m) post
  | none => Calm e e' ∧ s'.ended = s' ∧ s.buffer ++ valuesOf t s.first s.last = []
  | some (.error cause) => s'.ended = s' ∧ s.buffer = [] ∧
      Halts t s.first s.last e e' [] (some cause)

omit [Lossless K] [Lossless V] [Std.IsLinearOrder K] in
/-- A scan may have gone on behind some blocks that it read before. -/
theorem Advance.prepend {s₁ : Scan K V} {value : Option (Except MapError V)}
    (h : Advance m post s₁ s' e' e'' value) (hcalm : Calm e e') (hbuffer : s.buffer = [])
    (hfirst : s₁.first = s.first) (hlast : s₁.last = s.last)
    (hread : s₁.buffer = valuesOf pre s.first s.last) :
    Advance m (pre ++ post) s s' e e'' value := by
  unfold Advance at h ⊢
  rw [hfirst, hlast, hread] at h
  rw [hbuffer, List.nil_append]
  split at h
  · obtain ⟨hcalm', hfirst', hlast', passed, rest, rfl, hgiven, hawaits⟩ := h
    refine ⟨hcalm.trans hcalm', hfirst', hlast', pre ++ passed, rest, ?_, ?_, hawaits⟩
    · rw [List.append_assoc]
    · rw [List.nil_append, valuesOf_append, hgiven]
  · obtain ⟨hcalm', hended, hnil⟩ := h
    exact ⟨hcalm.trans hcalm', hended, by rw [valuesOf_append, hnil]⟩
  · obtain ⟨hended, hnil, hhalts⟩ := h
    have hall := hhalts.prepend pre hcalm
    rw [hnil, List.append_nil] at hall
    exact ⟨hended, rfl, hall⟩

theorem nextWithin_advance {keep : Scan K V → Engine K V → Engine K V}
    {value : Option (Except MapError V)} (hkeep : ∀ s e, Keeps limit e (keep s e))
    (hcalm : ∀ s e, Calm e (keep s e)) (hs : e.AllHold limit) (hw : e'.Within limit)
    (hm : e.maps[m]? = some state) (ha : s.Awaits (e.layout m) t) (hfuel : t.length ≤ fuel)
    (h : nextWithin keep fuel s e = (value, s', e')) : Advance m t s s' e e' value := by
  induction fuel using Nat.strong_induction_on generalizing s t e with
  | _ fuel ih =>
    rcases nextWithin_cases h with ⟨v, buffer, hbuffer, rfl, rfl, rfl⟩ |
      ⟨hbuffer, hover, rfl, rfl, rfl⟩ | ⟨left, ref, s₁, r, e₁, hbuffer, rfl, hvisit, hvalues, hread⟩
    · refine ⟨⟨rfl, id⟩, rfl, rfl, [], t, rfl, ?_, ha.suffix, ha.fresh, ha.queue⟩
      rw [hbuffer]
      exact List.append_nil _
    · refine ⟨⟨rfl, id⟩, rfl, ?_⟩
      rw [hbuffer, List.nil_append]
      exact valuesOf_of_over hs hm ha hfuel hover
    · rcases visit?_reads hs hm ha with ⟨hvisit', -⟩ |
        ⟨skipped, x, post, s₂, rfl, hskipped, hvisit', hstep⟩ <;> rw [hvisit] at hvisit'
      · simp at hvisit'
      obtain ⟨rfl, rfl⟩ := Prod.mk.inj (Option.some.inj hvisit')
      have hk₀ := hkeep (s₁.reading x.ref) e
      have hcalm₀ := hcalm (s₁.reading x.ref) e
      rcases hread with ⟨cause, rfl, rfl, rfl, rfl⟩ | ⟨values, next, rfl, hrest⟩
      · rcases hstep _ _ _ hk₀ hvalues hw with ⟨hr, hx, hstops, hrefuses⟩ | ⟨next, hr, -⟩
        · obtain rfl := Except.error.inj hr
          exact ⟨rfl, hbuffer, hskipped ▸ .failed rfl hx (hcalm₀.stops hstops)
            fun hobliging => hrefuses (hcalm₀.obliging hobliging)⟩
        · simp at hr
      · have hk : Keeps limit e e₁ := hk₀.trans (keeps_valuesIn hvalues)
        have hkrest : Keeps limit e₁ e' := keeps_nextWithin hkeep hrest
        have hw₁ := hw.of_suffix hkrest.events
        obtain ⟨hr, -⟩ | ⟨next', hr, hcalm₁, hfirst, hlast, hawaits⟩ :=
          hstep _ _ _ hk₀ hvalues hw₁
        · simp at hr
        obtain ⟨rfl, rfl⟩ := Prod.mk.inj (Except.ok.inj hr)
        have hlength : post.length ≤ left := by
          simp only [List.length_append, List.length_cons] at hfuel
          omega
        have hih := ih left left.lt_succ_self (hk.allHold hw₁ hs) (hk.maps ▸ hm) hawaits
          hlength hrest
        have hpre : valuesOf (skipped ++ [x]) s.first s.last = valuesOf [x] s.first s.last := by
          rw [valuesOf_append, hskipped, List.nil_append]
        have hall := hih.prepend (hcalm₀.trans hcalm₁) hbuffer hfirst hlast hpre.symm
        rwa [List.append_assoc] at hall

/-! ### Scans to their end -/

omit [Wire K] [Wire V] [Lossless K] [Lossless V] [Std.IsLinearOrder K] in
theorem Halts.setScan (h : Halts t first last e e' given failure) (n : Nat) (s : Scan K V) :
    Halts t first last e (e'.setScan n s) given failure := by
  cases h with
  | ended hcalm => exact .ended ⟨hcalm.refusedLoads, hcalm.obliging⟩
  | failed ht hx hstops hrefuses => exact .failed ht hx hstops hrefuses

variable [Sized K] [Sized V] {k : Nat} {as : List (Answer K V)}

omit [Lossless K] [Lossless V] [Std.IsLinearOrder K] in
/-- A scan that is at its end gives nothing, and nothing happens. -/
theorem serveAll_next_ended (hn : e.scans[n]? = some s) (hended : s.ended = s) (k : Nat) :
    e.serveAll (List.replicate k (.next n)) = (List.replicate k (.value none), e) := by
  have hnext : e.next n = (none, e) := by
    have hqueue : s.queue = [] := congrArg Scan.queue hended.symm
    have hbuffer : s.buffer = [] := congrArg Scan.buffer hended.symm
    have hwithin : nextWithin (setScan n) e.blocks.length s e = (none, s, e) := by
      unfold nextWithin
      simp [hbuffer, Scan.visit?, hqueue, hended]
    have hset : e.setScan n s = e := by
      obtain ⟨hlt, rfl⟩ := List.getElem?_eq_some_iff.1 hn
      rw [setScan, List.set_getElem_self]
    simp only [next, hn, hwithin, hset]
  induction k with
  | zero => rfl
  | succ k ih =>
    simp only [List.replicate_succ, serveAll, serve_next, hnext, ih]
    rfl

end Engine

/-- The answer to a request of a number for the next value of a scan that gives these values, and
then fails or is over. -/
def Answer.ofScan (vs : List V) (failure : Option MapError) (i : Nat) : Answer K V :=
  (((vs.map fun v => .value (some v)) ++ failure.toList.map .failed)[i]?).getD (.value none)

theorem Answer.map_ofScan_nil (k : Nat) :
    (List.range k).map (ofScan [] none) = List.replicate k (.value none : Answer K V) := by
  have hconst : (ofScan [] none : Nat → Answer K V) = fun _ => .value none := rfl
  rw [hconst, List.map_const', List.length_range]

namespace Engine

variable [Wire K] [Wire V] [LE K] [DecidableLE K] [Lossless K] [Lossless V] [Std.IsLinearOrder K]
  [Sized K] [Sized V]

variable {e e' : Engine K V} {limit : Option Nat} {m n k : Nat} {state : MapState K} {s : Scan K V}
  {t : Layout K V} {as : List (Answer K V)} {first last : Option K}

omit [Sized K] [Sized V] in
/-- What comes of asking an open scan for a value. -/
theorem next_advance {value : Option (Except MapError V)} (hs : e.AllHold limit)
    (hm : e.maps[m]? = some state) (hn : e.scans[n]? = some s) (ha : s.Awaits (e.layout m) t)
    (h : e.next n = (value, e')) (hw : e'.Within limit) :
    ∃ s', e'.scans[n]? = some s' ∧ Advance m t s s' e e' value := by
  have hh := hs.holds m state hm
  have hlength := length_layout_le hh.tiled fun x hx => (hh.shows x hx).lt_length
  have hscans := (next_frame n e).2.1
  rw [h] at hscans
  simp only [next, hn] at h
  rcases hnext : nextWithin (setScan n) e.blocks.length s e with ⟨v, s', e₁⟩
  rw [hnext] at h
  obtain ⟨rfl, rfl⟩ := Prod.mk.inj h
  have hw₁ : e₁.Within limit := hw
  have hadvance :=
    nextWithin_advance (fun _ _ => keeps_setScan n _) (fun _ _ => ⟨rfl, id⟩) hs hw₁ hm ha
    (ha.suffix.length_le.trans hlength) hnext
  have hlt : n < e₁.scans.length := by
    rw [setScan, List.length_set] at hscans
    exact hscans ▸ (List.getElem?_eq_some_iff.1 hn).1
  refine ⟨s', by simp [setScan, hlt], ?_⟩
  unfold Advance at hadvance ⊢
  split at hadvance
  · obtain ⟨hcalm, hrest⟩ := hadvance
    exact ⟨⟨hcalm.refusedLoads, hcalm.obliging⟩, hrest⟩
  · obtain ⟨hcalm, hrest⟩ := hadvance
    exact ⟨⟨hcalm.refusedLoads, hcalm.obliging⟩, hrest⟩
  · obtain ⟨hended, hbuffer, hhalts⟩ := hadvance
    exact ⟨hended, hbuffer, hhalts.setScan n s'⟩

/-- A scan that is asked for more values than it has to give comes to its end. -/
theorem serveAll_next (hs : e.AllHold limit) (hm : e.maps[m]? = some state)
    (hn : e.scans[n]? = some s) (ha : s.Awaits (e.layout m) t)
    (hk : (s.buffer ++ valuesOf t s.first s.last).length < k)
    (h : e.serveAll (List.replicate k (.next n)) = (as, e')) (hw : e'.Within limit) :
    Keeps limit e e' ∧ ∃ given failure, Halts t s.first s.last e e' given failure ∧
      as = (List.range k).map (.ofScan (s.buffer ++ given) failure) := by
  induction k generalizing e s t as with
  | zero => omega
  | succ k ih =>
    rw [List.replicate_succ] at h
    obtain ⟨a, e₁', as', hserve, hrest, rfl⟩ := serveAll_cons h
    rcases hnext : e.next n with ⟨value, e₁⟩
    rw [serve_next, hnext] at hserve
    obtain ⟨rfl, rfl⟩ := Prod.mk.inj hserve
    have hw₁ := hw.of_suffix (suffix_serveAll hrest)
    have hkeeps : Keeps limit e e₁ := keeps_next hnext
    obtain ⟨s', hn', hadvance⟩ := next_advance hs hm hn ha hnext hw₁
    unfold Advance at hadvance
    split at hadvance
    · rename_i v
      obtain ⟨hcalm, hfirst, hlast, pre, post, rfl, hgiven, hawaits⟩ := hadvance
      have hlength : (s'.buffer ++ valuesOf post s'.first s'.last).length < k := by
        rw [hfirst, hlast]
        rw [valuesOf_append, ← List.append_assoc, hgiven] at hk
        simpa using hk
      obtain ⟨hkeeps', given, failure, hhalts, rfl⟩ :=
        ih (hkeeps.allHold hw₁ hs) (hkeeps.maps ▸ hm) hn' hawaits hlength hrest
      rw [hfirst, hlast] at hhalts
      refine ⟨hkeeps.trans hkeeps', _, failure, hhalts.prepend _ hcalm, ?_⟩
      rw [← List.append_assoc, hgiven, List.range_succ_eq_map, List.map_cons, List.map_map]
      rfl
    · obtain ⟨hcalm, hended, hnil⟩ := hadvance
      rw [serveAll_next_ended hn' hended] at hrest
      obtain ⟨rfl, rfl⟩ := Prod.mk.inj hrest
      refine ⟨hkeeps, _, none, .ended hcalm, ?_⟩
      rw [hnil, Answer.map_ofScan_nil]
      rfl
    · rename_i cause
      obtain ⟨hended, hbuffer, hhalts⟩ := hadvance
      rw [serveAll_next_ended hn' hended] at hrest
      obtain ⟨rfl, rfl⟩ := Prod.mk.inj hrest
      refine ⟨hkeeps, _, _, hhalts, ?_⟩
      rw [hbuffer, ← Answer.map_ofScan_nil, List.range_succ_eq_map, List.map_cons, List.map_map]
      rfl

/-- A scan over a range that nothing else happens beside comes to its end. -/
theorem serveAll_scan (hs : e.AllHold limit) (hm : e.maps[m]? = some state)
    (hbound : ¬ (first.isNone ∧ last.isNone)) (hk : (valuesOf (e.layout m) first last).length < k)
    (h : e.serveAll (.openScan m first last :: List.replicate k (.next e.scans.length)) = (as, e'))
    (hw : e'.Within limit) :
    Keeps limit e e' ∧ ∃ given failure, Halts (e.layout m) first last e e' given failure ∧
      as = .done :: (List.range k).map (.ofScan given failure) := by
  obtain ⟨s, hscan, rfl, rfl, hbuffer, ha⟩ := scan_spec hs hm hbound
  set e₁ : Engine K V := { e with scans := e.scans ++ [s] } with he₁
  have hlt : m < e.maps.length := (List.getElem?_eq_some_iff.1 hm).1
  have hserve : e.serve (.openScan m s.first s.last) = (.done, e₁) := by
    simp [serve, Request.target?, perform, hlt, openScan, hscan, bind, Except.bind, pure,
      Except.pure, he₁]
  have hkeeps : Keeps limit e e₁ := .of_frame (List.suffix_refl _) rfl rfl rfl rfl
  obtain ⟨a, e₁', as', hfirst, hrest, rfl⟩ := serveAll_cons h
  obtain ⟨rfl, rfl⟩ := Prod.mk.inj (hserve.symm.trans hfirst)
  have hw₁ := hw.of_suffix (suffix_serveAll hrest)
  have hn : e₁.scans[e.scans.length]? = some s := by simp [he₁]
  obtain ⟨hkeeps', given, failure, hhalts, rfl⟩ := serveAll_next (hkeeps.allHold hw₁ hs) hm hn ha
    (by rwa [hbuffer]) hrest hw
  rw [hbuffer]
  have hcalm : Calm e e₁ := ⟨rfl, id⟩
  exact ⟨hkeeps.trans hkeeps', _, failure, hhalts.prepend [] hcalm, rfl⟩

/-- A lookup of a range gives the values of all blocks, or it fails since it cannot read one. -/
theorem serve_range {a : Answer K V} (hs : e.AllHold limit) (hm : e.maps[m]? = some state)
    (hbound : ¬ (first.isNone ∧ last.isNone)) (h : e.serve (.range m first last) = (a, e'))
    (hw : e'.Within limit) :
    Keeps limit e e' ∧ ∃ given failure, Halts (e.layout m) first last e e' given failure ∧
      a = failure.elim (.values given) .failed := by
  obtain ⟨s, hscan, rfl, rfl, hbuffer, ha⟩ := scan_spec hs hm hbound
  have hh := hs.holds m state hm
  have hlength := length_layout_le hh.tiled fun x hx => (hh.shows x hx).lt_length
  have hlt : m < e.maps.length := (List.getElem?_eq_some_iff.1 hm).1
  rcases hrun : Act.run (valuesBetween m s.first s.last) e with ⟨r, e₁⟩
  have hkeeps : Keeps limit e e₁ := keeps_valuesBetween hrun
  simp only [serve, Request.target?, Option.all_some, hlt, decide_true, if_true, perform, hrun,
    Prod.map, id, Prod.mk.injEq] at h
  obtain ⟨rfl, rfl⟩ := h
  simp only [valuesBetween, Act.run_bind, Act.run_get, hscan] at hrun
  obtain ⟨given, failure, hhalts, rfl⟩ := valuesWithin_halts hs hw hm ha hlength hrun
  refine ⟨hkeeps, given, failure, hhalts, ?_⟩
  rw [hbuffer]
  cases failure <;> rfl

/-- As soon as no page store refuses to read a page any more, a scan and a lookup over a range give
all of these values. -/
def Recovers (limit : Option Nat) (e : Engine K V) (m : Nat) (first last : Option K) (vs : List V) :
    Prop :=
  ∀ faults : Faults, (∀ i, faults.loads.refused i = false) →
    (∀ k as e', vs.length < k → (e.plan 0 faults).serveAll
        (.openScan m first last :: List.replicate k (.next e.scans.length)) = (as, e') →
      e'.Within limit → as = .done :: (List.range k).map (.ofScan vs none)) ∧
    ∀ a e', (e.plan 0 faults).serve (.range m first last) = (a, e') → e'.Within limit →
      a = .values vs

omit [Wire K] [Wire V] [Lossless K] [Lossless V] [Std.IsLinearOrder K] [Sized K] [Sized V] in
/-- If no page store refuses to read a page, all blocks are gone through. -/
theorem Halts.eq_of_obliging {given : List V} {failure : Option MapError}
    (h : Halts t first last e e' given failure) (he : e.Obliging) :
    given = valuesOf t first last ∧ failure = none := by
  cases h with
  | ended => exact ⟨rfl, rfl⟩
  | failed _ _ _ hrefuses => exact absurd he hrefuses

omit [Wire K] [Wire V] [Lossless K] [Lossless V] [Std.IsLinearOrder K] [Sized K] [Sized V] in
/-- What is given are the values of the first blocks, and there is a failure if and only if a page
store refused to read a page. -/
theorem Halts.isSome_iff {given : List V} {failure : Option MapError}
    (h : Halts t first last e e' given failure) : given <+: valuesOf t first last ∧
      (failure.isSome = true ↔ e.refusedLoads < e'.refusedLoads) := by
  cases h with
  | ended hcalm => simp [hcalm.refusedLoads]
  | failed ht _ hstops _ =>
    obtain ⟨b, -, -, hcount, -⟩ := hstops
    refine ⟨?_, by simp [hcount]⟩
    rw [ht, valuesOf_append]
    exact List.prefix_append _ _

theorem AllHold.recovers (hs : e.AllHold limit) (hm : e.maps[m]? = some state)
    (hbound : ¬ (first.isNone ∧ last.isNone)) :
    e.Recovers limit m first last (valuesOf (e.layout m) first last) := by
  intro faults hfaults
  set e₀ := e.plan 0 faults with he₀
  have hkeeps : Keeps limit e e₀ := keeps_plan faults
  obtain ⟨store, hstores, -⟩ := hs.roomy
  have hobliging : e₀.Obliging := by
    intro s hmem
    have hsame : e₀.stores = [{ store with faults }] := by rw [he₀, plan, hstores]; rfl
    rw [hsame, List.mem_singleton] at hmem
    rw [hmem]
    exact hfaults
  have hm₀ : e₀.maps[m]? = some state := hkeeps.maps ▸ hm
  constructor
  · intro k as e' hk hrun hw
    have hw₀ := hw.of_suffix (suffix_serveAll hrun)
    rw [← hkeeps.layout hw₀ hs m] at hk ⊢
    obtain ⟨-, given, failure, hhalts, rfl⟩ :=
      serveAll_scan (hkeeps.allHold hw₀ hs) hm₀ hbound hk hrun hw
    obtain ⟨rfl, rfl⟩ := hhalts.eq_of_obliging hobliging
    rfl
  · intro a e' hserve hw
    have hw₀ := hw.of_suffix (suffix_serve hserve)
    rw [← hkeeps.layout hw₀ hs m]
    obtain ⟨-, given, failure, hhalts, rfl⟩ :=
      serve_range (hkeeps.allHold hw₀ hs) hm₀ hbound hserve hw
    obtain ⟨rfl, rfl⟩ := hhalts.eq_of_obliging hobliging
    rfl

end Engine

namespace Session

variable [Wire K] [Wire V] [LE K] [DecidableLE K] [Std.IsLinearOrder K] [Sized K] [Sized V]
  [Lossless K] [Lossless V]

variable {limit : Option Nat} {policies : List (Policy BlockRef)} {store : Store K V}
  {volume : Volume} {cs : List (Command K V)} {s : Session K V} {m : Nat} {first last : Option K}

/-- In every state that a session comes to, whatever the page store is to refuse, let a scan over a
range with a bound be asked for more values than the map has in the range.
* The scan gives the values of all blocks before the first one that cannot be read.  Then it fails
  once, if there is such a block, and gives nothing any more.
* A lookup of the range fails if and only if it comes to a block that cannot be read.
* A scan and a lookup after the page store recovered, and those of a page store that refuses no
  page, give the values of all blocks. -/
theorem interrupted_run (hready : store.Ready limit volume)
    (hrun : (start policies store volume).run cs = s) (hw : s.engine.Within limit)
    (hm : m < s.engine.maps.length) (hbound : ¬ (first.isNone ∧ last.isNone)) :
    let t := s.engine.layout m
    let vs := (Entries.between (s.engine.contents m) first last).map (·.2)
    s.engine.Recovers limit m first last vs ∧
    (∀ k as e, vs.length < k → s.engine.serveAll
        (.openScan m first last :: List.replicate k (.next s.engine.scans.length)) = (as, e) →
      e.Within limit → ∃ given failure, Engine.Halts t first last s.engine e given failure ∧
        given <+: vs ∧ (failure.isSome = true ↔ s.engine.refusedLoads < e.refusedLoads) ∧
        as = .done :: (List.range k).map (.ofScan given failure) ∧
        e.Recovers limit m first last vs) ∧
    ∀ a e, s.engine.serve (.range m first last) = (a, e) → e.Within limit →
      ∃ given failure, Engine.Halts t first last s.engine e given failure ∧
        (failure.isSome = true ↔ s.engine.refusedLoads < e.refusedLoads) ∧
        a = failure.elim (.values given) .failed ∧ e.Recovers limit m first last vs := by
  intro t vs
  subst hrun
  have hs := (goes_run (documented_start hready) hw).documented.engine
  set e₀ := ((start policies store volume).run cs).engine with he₀
  have hstate : e₀.maps[m]? = some e₀.maps[m] := List.getElem?_eq_getElem hm
  have hlater {e : Engine K V} (hk : Engine.Keeps limit e₀ e) (hw : e.Within limit) :
      e.Recovers limit m first last vs := by
    have hstate' : e.maps[m]? = some e₀.maps[m] := by rw [hk.maps]; exact hstate
    have hrecovers := (hk.allHold hw hs).recovers hstate' hbound
    rwa [hk.layout hw hs m] at hrecovers
  refine ⟨hlater (.refl limit _) hw, ?_, ?_⟩
  · intro k as e hk hscan hw'
    obtain ⟨hkeeps, given, failure, hhalts, has⟩ :=
      Engine.serveAll_scan hs hstate hbound hk hscan hw'
    obtain ⟨hgiven, hfailure⟩ := hhalts.isSome_iff
    exact ⟨given, failure, hhalts, hgiven, hfailure, has, hlater hkeeps hw'⟩
  · intro a e hserve hw'
    obtain ⟨hkeeps, given, failure, hhalts, ha⟩ := Engine.serve_range hs hstate hbound hserve hw'
    exact ⟨given, failure, hhalts, hhalts.isSome_iff.2, ha, hlater hkeeps hw'⟩

/-- A map has two blocks, of which none but the last one read stays in memory.  The second one
cannot be read, so a scan gives the two values of the first one, and fails. -/
theorem interrupted_run_second :
    let sizing : Sizing := { maxBlockSize := 12, entryOverhead := 2, blockOverhead := 0 }
    let cs : List (Command (Shape.uint .w8).Datum (Shape.uint .w8).Datum) :=
      [.request (.make sizing 0), .request (.put 0 5#8 1#8), .request (.put 0 3#8 2#8),
        .request (.put 0 9#8 3#8), .request (.put 0 7#8 4#8),
        .request (.plan { loads := { refused := fun i => i = 1 } })]
    let s := (start [.clock (.empty 1)] .inMemory {}).run cs
    let vs := (Entries.between (s.engine.contents 0) (some 2#8) none).map (·.2)
    let scanned := s.engine.serveAll
      (.openScan 0 (some 2#8) none :: List.replicate 6 (.next s.engine.scans.length))
    vs.map BitVec.toNat = [2, 1, 4, 3] ∧
      scanned.1 = [.done, .value (some 2#8), .value (some 1#8), .failed (.storage (.io .injected)),
        .value none, .value none, .value none] ∧
      ∃ given failure, failure.isSome = true ∧
        Engine.Halts (s.engine.layout 0) (some 2#8) none s.engine scanned.2 given failure ∧
        scanned.2.Recovers none 0 (some 2#8) none vs := by
  intro sizing cs s vs scanned
  have hvalues : vs.map BitVec.toNat = [2, 1, 4, 3] := by decide +kernel
  have hlength : vs.length < 6 := by decide +kernel
  have hanswers : scanned.1 = [.done, .value (some 2#8), .value (some 1#8),
      .failed (.storage (.io .injected)), .value none, .value none, .value none] := by
    decide +kernel
  have hrefused : s.engine.refusedLoads < scanned.2.refusedLoads := by decide +kernel
  have hmaps : 0 < s.engine.maps.length := by decide +kernel
  have hready : (Store.inMemory (K := (Shape.uint .w8).Datum) (V := (Shape.uint .w8).Datum)).Ready
      none {} := trivial
  have hrun : (start [.clock (.empty 1)] .inMemory {}).run cs = s := rfl
  have hscan : s.engine.serveAll
      (.openScan 0 (some 2#8) none :: List.replicate 6 (.next s.engine.scans.length)) =
        (scanned.1, scanned.2) := Prod.mk.eta.symm
  have hvs : vs = (Entries.between (s.engine.contents 0) (some 2#8) none).map (·.2) := rfl
  clear_value scanned vs s
  have hw (e : Engine (Shape.uint .w8).Datum (Shape.uint .w8).Datum) : e.Within none :=
    Engine.within_none _
  have hbound : ¬ ((some (2#8 : (Shape.uint .w8).Datum)).isNone ∧
      (none : Option (Shape.uint .w8).Datum).isNone) := by simp
  obtain ⟨-, hscanned, -⟩ := interrupted_run hready hrun (hw _) hmaps hbound
  obtain ⟨given, failure, hhalts, -, hfailure, -, hrecovers⟩ :=
    hscanned 6 _ _ (hvs ▸ hlength) hscan (hw _)
  exact ⟨hvalues, hanswers, given, failure, hfailure.2 hrefused, hhalts, hvs ▸ hrecovers⟩

end Session

end PagedMap
