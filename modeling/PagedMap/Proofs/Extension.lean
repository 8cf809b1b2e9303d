import Mathlib
import PagedMap.Engine.Edit
import PagedMap.Engine.Scan
import PagedMap.Engine.Snapshot

/-!
# What is only added to

Whatever is done with an engine, and whether it succeeds or fails, what was recorded stays recorded,
and a scan under way comes no further unless it is asked to (`Engine.Extends`).  This is shown for
the calls of page stores and policies, and for every act that is made of them (`Act.Records`).  What
an act keeps follows in general from what its parts keep (`Act.Along`), or from all that can come of
it, which is said once for each act that reads, edits or describes a block (`valuesIn_cases`,
`removeFrom_cases`, `snapshotBlock_cases`) or goes through many of them (`valuesWithin_cases`,
`nextWithin_cases`, `snapshot_cases`).
-/

namespace PagedMap

variable {K V : Type}

/-- What was recorded stays recorded, and the scans stay where they are. -/
structure Engine.Extends (e e' : Engine K V) : Prop where
  events : e.events <:+ e'.events
  scans : e'.scans = e.scans

namespace Engine

theorem getElem?_append_singleton {α : Type} (xs : List α) (x : α) (i : Nat) :
    (xs ++ [x])[i]? = if i = xs.length then some x else xs[i]? := by
  rcases Nat.lt_trichotomy i xs.length with hlt | rfl | hgt
  · rw [List.getElem?_append_left hlt, if_neg hlt.ne]
  · simp
  · rw [if_neg hgt.ne', List.getElem?_eq_none (by simp; omega), List.getElem?_eq_none hgt.le]

variable {e e' e'' : Engine K V}

section AddMap

variable {sizing : Sizing} {policy store : Nat}

theorem addMap_of_error {cause : MapError} (h : sizing.budget = .error cause) (policy store : Nat)
    (e : Engine K V) : e.addMap sizing policy store = .error cause := by
  simp [addMap, h, bind, Except.bind]

theorem addMap_of_ok {budget : Nat} (h : sizing.budget = .ok budget) (policy store : Nat)
    (e : Engine K V) : e.addMap sizing policy store = .ok { e with maps := e.maps ++
      [{ home := ⟨e.maps.length + 1, policy, store, sizing.entryOverhead, budget⟩ }] } := by
  simp [addMap, h, bind, Except.bind, pure, Except.pure]

theorem addMap_eq_ok (h : e.addMap sizing policy store = .ok e') :
    ∃ budget, sizing.budget = .ok budget ∧ e' = { e with maps := e.maps ++
      [{ home := ⟨e.maps.length + 1, policy, store, sizing.entryOverhead, budget⟩ }] } := by
  cases hbudget : sizing.budget with
  | error cause => simp [addMap_of_error hbudget] at h
  | ok budget =>
    exact ⟨budget, rfl, (Except.ok.inj ((addMap_of_ok hbudget policy store e).symm.trans h)).symm⟩

end AddMap

theorem Extends.refl (e : Engine K V) : e.Extends e := ⟨List.suffix_refl _, rfl⟩

theorem Extends.trans (h : e.Extends e') (h' : e'.Extends e'') : e.Extends e'' :=
  ⟨h.events.trans h'.events, h'.scans.trans h.scans⟩

/-- What extends an engine extends one with the same records and scans. -/
theorem Extends.congr (h : e'.Extends e'') (hevents : e'.events = e.events)
    (hscans : e'.scans = e.scans) : e.Extends e'' :=
  ⟨hevents ▸ h.events, h.scans.trans hscans⟩

theorem extends_record (event : Event K V) (e : Engine K V) : e.Extends (e.record event) :=
  ⟨List.suffix_cons _ _, rfl⟩

theorem extends_foldl {α : Type} {f : Engine K V → α → Engine K V}
    (hf : ∀ (e : Engine K V) (x : α), e.Extends (f e x))
    (xs : List α) (e : Engine K V) : e.Extends (xs.foldl f e) := by
  induction xs generalizing e with
  | nil => exact .refl e
  | cons x xs ih => exact (hf e x).trans (ih _)

end Engine

/-! ### Acts -/

namespace Act

variable {α β : Type}

/-- Whatever comes of the act, `R` relates the engine before it and the engine after it. -/
def Along (R : Engine K V → Engine K V → Prop) (a : Act K V α) : Prop := ∀ e, R e (run a e).2

section Cases

variable {e e' : Engine K V}

/-- An act followed by another fails with it, or the other follows. -/
theorem bind_cases {a : Act K V α} {f : α → Act K V β} {r : Except MapError β}
    (h : run (a >>= f) e = (r, e')) :
    (∃ cause, run a e = (.error cause, e') ∧ r = .error cause) ∨
    ∃ x e₁, run a e = (.ok x, e₁) ∧ run (f x) e₁ = (r, e') := by
  rw [run_bind] at h
  rcases ha : run a e with ⟨cause | x, e₁⟩ <;> rw [ha] at h
  · obtain ⟨rfl, rfl⟩ := Prod.mk.inj h
    exact Or.inl ⟨cause, rfl, rfl⟩
  · exact Or.inr ⟨x, e₁, rfl, h⟩

/-- What is done to each of a list fails with the first, or goes on with the others. -/
theorem mapM_cons_cases {f : α → Act K V β} {x : α} {xs : List α} {r : Except MapError (List β)}
    (h : run ((x :: xs).mapM f) e = (r, e')) :
    (∃ cause, run (f x) e = (.error cause, e') ∧ r = .error cause) ∨
    ∃ y e₁ rest, run (f x) e = (.ok y, e₁) ∧ run (xs.mapM f) e₁ = (rest, e') ∧
      r = rest.map (y :: ·) := by
  rw [List.mapM_cons] at h
  rcases bind_cases h with hfailed | ⟨y, e₁, hfirst, h⟩
  · exact Or.inl hfailed
  rcases bind_cases h with ⟨cause, hrest, rfl⟩ | ⟨ys, e₂, hrest, hpure⟩
  · exact Or.inr ⟨y, e₁, _, hfirst, hrest, rfl⟩
  · obtain ⟨rfl, rfl⟩ := Prod.mk.inj hpure
    exact Or.inr ⟨y, e₁, _, hfirst, hrest, rfl⟩

end Cases

section Along

variable {R : Engine K V → Engine K V → Prop} [Std.Refl R]

theorem along_pure (x : α) : Along R (pure x : Act K V α) := fun e => Std.Refl.refl e

theorem along_get : Along R (get : Act K V (Engine K V)) := fun e => Std.Refl.refl e

theorem along_throw (cause : MapError) : Along R (throw cause : Act K V α) :=
  fun e => Std.Refl.refl e

variable [IsTrans (Engine K V) R]

omit [Std.Refl R] in
theorem Along.bind {a : Act K V α} {f : α → Act K V β} (ha : Along R a)
    (hf : ∀ x, Along R (f x)) : Along R (a >>= f) := by
  intro e
  have hfirst := ha e
  rw [run_bind]
  split
  · rename_i x e₁ hrun
    rw [hrun] at hfirst
    exact IsTrans.trans _ _ _ hfirst (hf x e₁)
  · rename_i cause e₁ hrun
    rw [hrun] at hfirst
    exact hfirst

theorem along_foldlM {f : β → α → Act K V β} (hf : ∀ x y, Along R (f x y)) (xs : List α) (y : β) :
    Along R (xs.foldlM f y) := by
  induction xs generalizing y with
  | nil => exact along_pure y
  | cons x xs ih => exact (hf y x).bind ih

theorem along_mapM {f : α → Act K V β} (hf : ∀ x, Along R (f x)) (xs : List α) :
    Along R (xs.mapM f) := by
  induction xs with
  | nil => exact along_pure []
  | cons x xs ih =>
    rw [List.mapM_cons]
    exact (hf x).bind fun y => ih.bind fun ys => along_pure _

end Along

end Act

instance : Std.Refl (Engine.Extends (K := K) (V := V)) := ⟨.refl⟩

instance : IsTrans (Engine K V) Engine.Extends := ⟨fun _ _ _ => .trans⟩

/-- Whatever comes of the act, it only adds to what was recorded, and it leaves the scans. -/
def Act.Records {α : Type} (a : Act K V α) : Prop := ∀ e : Engine K V, e.Extends (Act.run a e).2

namespace Act

variable {α β : Type}

theorem records_pure (x : α) : Records (pure x : Act K V α) := along_pure x

theorem records_get : Records (get : Act K V (Engine K V)) := along_get

theorem records_throw (cause : MapError) : Records (throw cause : Act K V α) := along_throw cause

theorem records_modifyGet {f : Engine K V → α × Engine K V}
    (h : ∀ e : Engine K V, e.Extends (f e).2) : Records (modifyGet f : Act K V α) := h

theorem records_modify {f : Engine K V → Engine K V} (h : ∀ e : Engine K V, e.Extends (f e)) :
    Records (modify f : Act K V Unit) := h

theorem records_ofStore {call : Engine K V → Except StoreError α × Engine K V}
    (h : ∀ e : Engine K V, e.Extends (call e).2) : Records (ofStore call) := h

theorem Records.map {a : Act K V α} (ha : Records a) (f : α → β) : Records (f <$> a) := by
  intro e
  rw [run_map]
  exact ha e

theorem Records.bind {a : Act K V α} {f : α → Act K V β} (ha : Records a)
    (hf : ∀ x, Records (f x)) : Records (a >>= f) := Along.bind ha hf

theorem records_foldlM {f : β → α → Act K V β} (hf : ∀ x y, Records (f x y)) (xs : List α) (y : β) :
    Records (xs.foldlM f y) := along_foldlM hf xs y

theorem records_mapM {f : α → Act K V β} (hf : ∀ x, Records (f x)) (xs : List α) :
    Records (xs.mapM f) := along_mapM hf xs

end Act

/-- The block that a scan comes to is one that it has yet to come to, and it comes to no others than
those afterwards. -/
theorem Scan.visit?_eq_some {s s' : Scan K V} {e : Engine K V} {ref : BlockRef}
    (h : s.visit? e = some (ref, s')) : ∃ queue b, e.blocks[ref]? = some b ∧
      ref :: queue ⊆ s.queue ∧
      s' = { s with queue, visited := b.id :: s.visited, buffer := [] } := by
  unfold Scan.visit? at h
  split at h
  · simp at h
  · rename_i r queue hqueue
    obtain ⟨b, hb, heq⟩ := Option.bind_eq_some_iff.1 h
    obtain ⟨rfl, rfl⟩ := Prod.mk.inj (Option.some.inj heq)
    exact ⟨queue, b, hb, fun n hn => List.dropWhile_subset _ (hqueue ▸ hn), rfl⟩

namespace Engine

/-! ### Blocks in and out of memory -/

theorem records_setBlock (ref : BlockRef) (b : Block K V) :
    Act.Records (modify (setBlock ref b) : Act K V Unit) := fun _ => ⟨List.suffix_refl _, rfl⟩

theorem records_notify (notice : Notice) : Act.Records (modify (notify notice) : Act K V Unit) :=
  extends_record _

theorem extends_hitPage (policy : Nat) (page : Page BlockRef) (e : Engine K V) :
    e.Extends (e.hitPage policy page) := by
  dsimp only [hitPage]
  split <;> exact ⟨List.suffix_cons _ _, rfl⟩

theorem extends_removePage (policy : Nat) (page : Page BlockRef) (e : Engine K V) :
    e.Extends (e.removePage policy page) := by
  dsimp only [removePage]
  split <;> exact ⟨List.suffix_cons _ _, rfl⟩

variable [Wire K] [Wire V]

theorem extends_loadPage (store page : Nat) (e : Engine K V) :
    e.Extends (e.loadPage store page).2 := by
  unfold loadPage
  split
  · exact .refl e
  · exact ⟨List.suffix_cons _ _, rfl⟩

theorem extends_createPage (store : Nat) (entries : List (K × V)) (e : Engine K V) :
    e.Extends (e.createPage store entries).2 := by
  unfold createPage
  split
  · exact .refl e
  · exact ⟨List.suffix_cons _ _, rfl⟩

theorem records_persist (ref : BlockRef) : Act.Records (persist ref : Act K V Unit) := by
  refine Act.records_get.bind fun e => ?_
  split
  · split
    · split
      · exact (Act.records_ofStore (extends_createPage _ _)).bind fun page =>
          (records_setBlock _ _).bind fun _ => records_notify _
      · exact Act.records_pure _
    · exact Act.records_pure _
  · exact Act.records_pure _

theorem records_unload (ref : BlockRef) (page : Nat) :
    Act.Records (unload ref page : Act K V Bool) := by
  have hforget : Act.Records (modify fun e : Engine K V =>
      { e with blocks := e.blocks.modify ref ({ · with entries := none }) } : Act K V Unit) :=
    fun _ => ⟨List.suffix_refl _, rfl⟩
  have hrest (b : Block K V) : Act.Records (do
      modify (setBlock ref { b with tracked := false })
      persist ref
      modify fun e => { e with blocks := e.blocks.modify ref ({ · with entries := none }) }
      modify (notify (.blockUnloaded b.id))
      return true : Act K V Bool) :=
    (records_setBlock _ _).bind fun _ => (records_persist ref).bind fun _ => hforget.bind fun _ =>
      (records_notify _).bind fun _ => Act.records_pure _
  refine Act.records_get.bind fun e => ?_
  split
  · split <;> dsimp only <;> split
    · exact (Act.records_throw _).bind fun _ => Act.records_pure _
    · exact Act.records_pure _
    · exact (Act.records_throw _).bind fun _ => hrest _
    · exact hrest _
  · exact Act.records_pure _

theorem extends_evict (page : Page BlockRef) (e : Engine K V) : e.Extends (e.evict page) := by
  unfold evict
  split
  · exact (records_unload page.owner page.key.pageId e).trans (extends_record _ _)
  · exact .refl e

theorem extends_addPage (policy : Nat) (page : Page BlockRef) (e : Engine K V) :
    e.Extends (e.addPage policy page) := by
  have hreport := extends_record (.reported .add policy page) e
  dsimp only [addPage]
  split
  · exact hreport
  · split
    · exact hreport.trans ((extends_evict _ _).congr rfl rfl)
    · exact hreport.trans ⟨List.suffix_refl _, rfl⟩

theorem extends_touch (ref : BlockRef) (b : Block K V) (e : Engine K V) :
    e.Extends (e.touch ref b) := by
  unfold touch
  split
  · exact extends_hitPage _ _ e
  · exact extends_addPage _ _ e

variable [LE K] [DecidableLE K]

theorem records_access (ref : BlockRef) (b : Block K V) : Act.Records (access ref b) := by
  have hjoin (es : Entries K V) : Act.Records (do
      modify (setBlock ref (b.loaded es))
      return es : Act K V (Entries K V)) :=
    (records_setBlock ref _).bind fun _ => Act.records_pure es
  dsimp only [access]
  split
  · exact (Act.records_pure _).bind hjoin
  · exact ((Act.records_ofStore (extends_loadPage _ _)).map _).bind hjoin

/-! ### Reading ranges -/

omit [Wire K] [Wire V] in
/-- A scan is opened over a range with a bound. -/
theorem openScan_eq_ok {m : Nat} {first last : Option K} {e e' : Engine K V}
    (h : e.openScan m first last = .ok e') :
    ∃ s, scan m first last e = .ok s ∧ e' = { e with scans := e.scans ++ [s] } := by
  unfold openScan at h
  rcases hscan : scan m first last e with cause | s <;> rw [hscan] at h
  · simp [bind, Except.bind] at h
  · exact ⟨s, rfl, (Except.ok.inj h).symm⟩

theorem records_valuesIn (ref : BlockRef) (first last : Option K) :
    Act.Records (valuesIn ref first last : Act K V (List V × Option BlockRef)) := by
  refine Act.records_get.bind fun e => ?_
  split
  · split
    · exact Act.records_pure _
    · exact (records_access _ _).bind fun es =>
        (Act.records_modify (extends_touch _ _)).bind fun _ => Act.records_pure _
  · exact Act.records_pure _

theorem records_valuesWithin (fuel : Nat) (s : Scan K V) : Act.Records (valuesWithin fuel s) := by
  induction fuel generalizing s with
  | zero => exact Act.records_pure _
  | succ fuel ih =>
    refine Act.records_get.bind fun e => ?_
    split
    · exact Act.records_pure _
    · exact (records_valuesIn _ _ _).bind fun _ => Act.records_get.bind fun _ =>
        (ih _).bind fun _ => Act.records_pure _

theorem records_valuesBetween (m : Nat) (first last : Option K) :
    Act.Records (valuesBetween m first last : Act K V (List V)) := by
  refine Act.records_get.bind fun e => ?_
  split
  · exact records_valuesWithin _ _
  · exact Act.records_throw _

/-- What comes of reading the values of a block: there is no block, or its bounds are outside the
range, or its entries are asked for, with which it fails or gives its values. -/
theorem valuesIn_cases {ref : BlockRef} {first last : Option K} {e e' : Engine K V}
    {r : Except MapError (List V × Option BlockRef)}
    (h : Act.run (valuesIn ref first last) e = (r, e')) :
    (e.blocks[ref]? = none ∧ r = .ok ([], none) ∧ e' = e) ∨
    ∃ b, e.blocks[ref]? = some b ∧
      ((b.overlaps first last = false ∧ r = .ok ([], b.next) ∧ e' = e) ∨
        (b.overlaps first last = true ∧
          ((∃ cause, Act.run (access ref b) e = (.error cause, e') ∧ r = .error cause) ∨
            ∃ es e₁, Act.run (access ref b) e = (.ok es, e₁) ∧
              r = .ok ((Entries.between es first last).map (·.2), b.next) ∧
              e' = e₁.touch ref b))) := by
  simp only [valuesIn, Act.run_bind, Act.run_get] at h
  split at h
  · rename_i b hb
    refine Or.inr ⟨b, hb, ?_⟩
    split at h
    · rename_i hoverlaps
      obtain ⟨rfl, rfl⟩ := Prod.mk.inj h
      exact Or.inl ⟨by simpa using hoverlaps, rfl, rfl⟩
    · rename_i hoverlaps
      refine Or.inr ⟨by simpa using hoverlaps, ?_⟩
      rcases Act.bind_cases h with hfailed | ⟨es, e₁, haccess, h⟩
      · exact Or.inl hfailed
      · obtain ⟨rfl, rfl⟩ := Prod.mk.inj h
        exact Or.inr ⟨es, e₁, haccess, rfl, rfl⟩
  · rename_i hnone
    obtain ⟨rfl, rfl⟩ := Prod.mk.inj h
    exact Or.inl ⟨Option.eq_none_iff_forall_ne_some.2 hnone, rfl, rfl⟩

/-- What comes of reading the values of a block that there is. -/
theorem valuesIn_at {ref : BlockRef} {first last : Option K} {e e' : Engine K V} {b : Block K V}
    {r : Except MapError (List V × Option BlockRef)} (hb : e.blocks[ref]? = some b)
    (h : Act.run (valuesIn ref first last) e = (r, e')) :
    (b.overlaps first last = false ∧ r = .ok ([], b.next) ∧ e' = e) ∨
    (b.overlaps first last = true ∧
      ((∃ cause, Act.run (access ref b) e = (.error cause, e') ∧ r = .error cause) ∨
        ∃ es e₁, Act.run (access ref b) e = (.ok es, e₁) ∧
          r = .ok ((Entries.between es first last).map (·.2), b.next) ∧ e' = e₁.touch ref b)) := by
  rcases valuesIn_cases h with ⟨hnone, -, -⟩ | ⟨b', hb', hread⟩
  · simp [hb] at hnone
  · obtain rfl := Option.some.inj (hb.symm.trans hb')
    exact hread

/-- A scan to its end gives what it read before, or it reads a block.  Then it fails with the block
or goes on behind it. -/
theorem valuesWithin_cases {fuel : Nat} {s : Scan K V} {e e' : Engine K V}
    {r : Except MapError (List V)} (h : Act.run (valuesWithin fuel s) e = (r, e')) :
    ((fuel = 0 ∨ s.visit? e = none) ∧ r = .ok s.buffer ∧ e' = e) ∨
    ∃ left ref s₁, fuel = left + 1 ∧ s.visit? e = some (ref, s₁) ∧
      ((∃ cause, Act.run (valuesIn ref s₁.first s₁.last) e = (.error cause, e') ∧
        r = .error cause) ∨
        ∃ values next e₁ rest,
          Act.run (valuesIn ref s₁.first s₁.last) e = (.ok (values, next), e₁) ∧
          Act.run (valuesWithin left (s₁.filled e₁ values next)) e₁ = (rest, e') ∧
          r = rest.map (s.buffer ++ ·)) := by
  cases fuel with
  | zero =>
    obtain ⟨rfl, rfl⟩ := Prod.mk.inj h
    exact Or.inl ⟨Or.inl rfl, rfl, rfl⟩
  | succ left =>
    simp only [valuesWithin, Act.run_bind, Act.run_get] at h
    split at h
    · rename_i hvisit
      obtain ⟨rfl, rfl⟩ := Prod.mk.inj h
      exact Or.inl ⟨Or.inr hvisit, rfl, rfl⟩
    · rename_i ref s₁ hvisit
      refine Or.inr ⟨left, ref, s₁, rfl, hvisit, ?_⟩
      rcases Act.bind_cases h with hfailed | ⟨⟨values, next⟩, e₁, hvalues, h⟩
      · exact Or.inl hfailed
      simp only [Act.run_bind, Act.run_get] at h
      rcases hrest : Act.run (valuesWithin left (s₁.filled e₁ values next)) e₁ with
        ⟨cause | rest, e₂⟩ <;>
        simp only [hrest, Act.run_pure] at h <;> obtain ⟨rfl, rfl⟩ := Prod.mk.inj h <;>
        exact Or.inr ⟨values, next, e₁, _, hvalues, hrest, rfl⟩

/-- A scan to its first value gives a value that it read before, or it is over, or it reads a block.
Then it fails with the block or goes on behind it. -/
theorem nextWithin_cases {keep : Scan K V → Engine K V → Engine K V} {fuel : Nat} {s s' : Scan K V}
    {e e' : Engine K V} {value : Option (Except MapError V)}
    (h : nextWithin keep fuel s e = (value, s', e')) :
    (∃ v buffer, s.buffer = v :: buffer ∧ value = some (.ok v) ∧ s' = { s with buffer } ∧ e' = e) ∨
    (s.buffer = [] ∧ (fuel = 0 ∨ s.visit? e = none) ∧ value = none ∧ s' = s.ended ∧ e' = e) ∨
    ∃ left ref s₁ r e₁, s.buffer = [] ∧ fuel = left + 1 ∧ s.visit? e = some (ref, s₁) ∧
      Act.run (valuesIn ref s₁.first s₁.last) (keep (s₁.reading ref) e) = (r, e₁) ∧
      ((∃ cause, r = .error cause ∧ value = some (.error cause) ∧ s' = s₁.ended ∧ e' = e₁) ∨
        ∃ values next, r = .ok (values, next) ∧
          nextWithin keep left (s₁.filled e₁ values next) e₁ = (value, s', e')) := by
  unfold nextWithin at h
  split at h
  · rename_i v buffer hbuffer
    obtain ⟨rfl, rfl, rfl⟩ := by simpa only [Prod.mk.injEq] using h
    exact Or.inl ⟨v, buffer, hbuffer, rfl, rfl, rfl⟩
  · rename_i hbuffer
    right
    split at h
    · rename_i left ref s₁ hvisit
      right
      rcases hvalues :
        Act.run (valuesIn ref s₁.first s₁.last) (keep (s₁.reading ref) e) with ⟨r, e₁⟩
      refine ⟨left, ref, s₁, r, e₁, hbuffer, rfl, hvisit, hvalues, ?_⟩
      rw [hvalues] at h
      split at h
      · rename_i values next e₂ hr
        obtain ⟨rfl, rfl⟩ := Prod.mk.inj hr
        exact Or.inr ⟨values, next, rfl, h⟩
      · rename_i cause e₂ hr
        obtain ⟨rfl, rfl⟩ := Prod.mk.inj hr
        obtain ⟨rfl, rfl, rfl⟩ := by simpa only [Prod.mk.injEq] using h
        exact Or.inl ⟨cause, rfl, rfl, rfl, rfl⟩
    · rename_i hover
      left
      obtain ⟨rfl, rfl, rfl⟩ := by simpa only [Prod.mk.injEq] using h
      refine ⟨hbuffer, or_iff_not_imp_left.2 fun hfuel => ?_, rfl, rfl, rfl⟩
      obtain ⟨left, rfl⟩ := Nat.exists_eq_succ_of_ne_zero hfuel
      rw [Option.eq_none_iff_forall_ne_some]
      rintro ⟨ref, s₁⟩ hvisit
      exact hover left ref s₁ rfl hvisit

/-- What comes of reading a range: it has no bounds, or a scan goes through it. -/
theorem valuesBetween_cases {m : Nat} {first last : Option K} {e e' : Engine K V}
    {r : Except MapError (List V)} (h : Act.run (valuesBetween m first last) e = (r, e')) :
    (∃ cause, scan m first last e = .error cause ∧ r = .error cause ∧ e' = e) ∨
    ∃ s, scan m first last e = .ok s ∧ Act.run (valuesWithin e.blocks.length s) e = (r, e') := by
  simp only [valuesBetween, Act.run_bind, Act.run_get] at h
  split at h
  · rename_i s hscan
    exact Or.inr ⟨s, hscan, h⟩
  · rename_i cause hscan
    obtain ⟨rfl, rfl⟩ := Prod.mk.inj h
    exact Or.inl ⟨cause, hscan, rfl, rfl⟩

/-- What comes of reading the value of a key: a scan comes to its first value, to its end or to a
failure. -/
theorem get?_cases {m : Nat} {key : K} {e e' : Engine K V} {r : Except MapError (Option V)}
    (h : Act.run (get? m key) e = (r, e')) :
    (∃ cause, scan m (some key) (some key) e = .error cause ∧ r = .error cause ∧ e' = e) ∨
    ∃ s value s', scan m (some key) (some key) e = .ok s ∧
      nextWithin (fun _ e => e) e.blocks.length s e = (value, s', e') ∧
      r = value.elim (.ok none) (·.map some) := by
  simp only [get?, Act.run_bind, Act.run_get] at h
  split at h
  · rename_i cause hscan
    obtain ⟨rfl, rfl⟩ := Prod.mk.inj h
    exact Or.inl ⟨cause, hscan, rfl, rfl⟩
  · rename_i s hscan
    rcases hnext : nextWithin (fun _ e => e) e.blocks.length s e with ⟨value, s', e₁⟩
    simp only [hnext, Act.run_bind, Act.run_set] at h
    refine Or.inr ⟨s, value, s', hscan, ?_⟩
    rcases value with _ | cause | v <;> obtain ⟨rfl, rfl⟩ := Prod.mk.inj h <;> exact ⟨hnext, rfl⟩

/-- What is true of every block that a scan reads and of every time it is kept is true of the
scan. -/
theorem nextWithin_induct {R : Engine K V → Engine K V → Prop} (hrefl : ∀ e, R e e)
    (htrans : ∀ e e' e'', R e e' → R e' e'' → R e e'') {keep : Scan K V → Engine K V → Engine K V}
    (hkeep : ∀ s e, R e (keep s e))
    (hread : ∀ ref first last e, R e (Act.run (valuesIn ref first last) e).2) (fuel : Nat)
    (s : Scan K V) (e : Engine K V) : R e (nextWithin keep fuel s e).2.2 := by
  rcases h : nextWithin keep fuel s e with ⟨value, s', e'⟩
  induction fuel using Nat.strong_induction_on generalizing s e with
  | _ fuel ih =>
    rcases nextWithin_cases h with ⟨v, buffer, -, -, -, rfl⟩ | ⟨-, -, -, -, rfl⟩ |
      ⟨left, ref, s₁, r, e₁, -, rfl, -, hvalues, hread₁⟩
    · exact hrefl _
    · exact hrefl _
    · have hstep := htrans _ _ _ (hkeep (s₁.reading ref) e) (hread ref s₁.first s₁.last _)
      rw [hvalues] at hstep
      rcases hread₁ with ⟨cause, -, -, -, rfl⟩ | ⟨values, next, -, hrest⟩
      · exact hstep
      · exact htrans _ _ _ hstep (ih left left.lt_succ_self _ _ hrest)

theorem records_get? (m : Nat) (key : K) : Act.Records (get? m key : Act K V (Option V)) := by
  intro e
  simp only [get?, Act.run_bind, Act.run_get]
  split
  · exact .refl e
  · rename_i s hscan
    have hnext : e.Extends (nextWithin (fun _ e => e) e.blocks.length s e).2.2 :=
      nextWithin_induct .refl (fun _ _ _ => .trans) (fun _ e => .refl e)
        (fun ref first last => records_valuesIn ref first last) _ _ _
    rcases hrun : nextWithin (fun _ e => e) e.blocks.length s e with ⟨value, s', e₁⟩
    rw [hrun] at hnext
    simp only [Act.run_bind, Act.run_set]
    split <;> exact hnext

theorem records_contains (m : Nat) (key : K) : Act.Records (contains m key : Act K V Bool) :=
  (records_get? m key).bind fun _ => Act.records_pure _

/-- A step of an open scan leaves the other scans. -/
theorem next_frame (n : Nat) (e : Engine K V) :
    e.events <:+ (e.next n).2.events ∧ (e.next n).2.scans.length = e.scans.length ∧
      ∀ i ≠ n, (e.next n).2.scans[i]? = e.scans[i]? := by
  unfold next
  split
  · exact ⟨List.suffix_refl _, rfl, fun _ _ => rfl⟩
  · rename_i s hs
    have hset (s : Scan K V) (e : Engine K V) : e.events <:+ (e.setScan n s).events ∧
        (e.setScan n s).scans.length = e.scans.length ∧
        ∀ i ≠ n, (e.setScan n s).scans[i]? = e.scans[i]? :=
      ⟨List.suffix_refl _, List.length_set, fun i hi => List.getElem?_set_ne hi.symm⟩
    have hnext := nextWithin_induct
      (R := fun e e' : Engine K V => e.events <:+ e'.events ∧ e'.scans.length = e.scans.length ∧
        ∀ i ≠ n, e'.scans[i]? = e.scans[i]?)
      (fun _ => ⟨List.suffix_refl _, rfl, fun _ _ => rfl⟩)
      (fun _ _ _ h h' => ⟨h.1.trans h'.1, h'.2.1.trans h.2.1,
        fun i hi => (h'.2.2 i hi).trans (h.2.2 i hi)⟩)
      hset (fun ref first last e => by
        have h := records_valuesIn ref first last e
        exact ⟨h.events, congrArg _ h.scans, fun i _ => congrArg (·[i]?) h.scans⟩)
      e.blocks.length s e
    have hlast := hset (nextWithin (setScan n) e.blocks.length s e).2.1
      (nextWithin (setScan n) e.blocks.length s e).2.2
    exact ⟨hnext.1.trans hlast.1, hlast.2.1.trans hnext.2.1,
      fun i hi => (hlast.2.2 i hi).trans (hnext.2.2 i hi)⟩

/-! ### Putting and removing -/

section Edit

variable [Sized K] [Sized V]

omit [Wire K] [Wire V] in
theorem extends_split (m : Nat) (ref : BlockRef) (b : Block K V) (e : Engine K V) :
    e.Extends (split m ref b e).2 := by
  dsimp only [split]
  split
  · exact .refl e
  · split
    · exact .refl e
    · exact ⟨List.suffix_cons _ _, rfl⟩

theorem extends_plant (m : Nat) (state : MapState K) (key : K) (value : V) (e : Engine K V) :
    e.Extends (plant m state key value e) :=
  (extends_addPage _ _ _).congr rfl rfl

theorem records_putInto (m : Nat) (ref : BlockRef) (key : K) (value : V) :
    Act.Records (putInto m ref key value) := by
  refine Act.records_get.bind fun e => ?_
  split
  · rename_i b hb
    split
    · exact Act.records_pure _
    · refine (records_access _ _).bind fun es => (records_setBlock _ _).bind fun _ => ?_
      split <;> refine Act.Records.bind ?_ fun product =>
        (Act.records_modify (extends_touch ref b)).bind fun _ => ?_
      · exact Act.records_modifyGet (extends_split _ _ _)
      · split
        · exact (Act.records_modify (extends_addPage _ _)).bind fun _ => Act.records_pure _
        · exact Act.records_pure _
      · exact Act.records_pure _
      · split
        · exact (Act.records_modify (extends_addPage _ _)).bind fun _ => Act.records_pure _
        · exact Act.records_pure _
  · exact Act.records_pure _

theorem records_put (m : Nat) (key : K) (value : V) : Act.Records (put m key value) := by
  have hplant (state : MapState K) :
      Act.Records (modify (plant m state key value) : Act K V Unit) :=
      extends_plant m state key value
  refine Act.Records.bind (Act.records_get.bind fun e => ?_) fun attempt => ?_
  · split
    · split <;> dsimp only <;> split
      · exact (Act.records_throw _).bind fun _ => records_putInto _ _ _ _
      · exact records_putInto _ _ _ _
      · exact (Act.records_throw _).bind fun _ => (hplant _).bind fun _ => Act.records_pure _
      · exact (hplant _).bind fun _ => Act.records_pure _
    · exact Act.records_pure _
  · split
    · exact Act.records_pure _
    · exact Act.records_throw _

theorem records_removeFrom (key : K) (ref : BlockRef) :
    Act.Records (removeFrom key ref : Act K V (Option V)) := by
  refine Act.records_get.bind fun e => ?_
  split
  · split
    · exact Act.records_pure _
    · exact (records_access _ _).bind fun es => (records_setBlock _ _).bind fun _ =>
        (Act.records_modify (extends_touch _ _)).bind fun _ => Act.records_pure _
  · exact Act.records_pure _

/-- What comes of removing the entry of a key from a block: there is no block, or its bounds leave
the key out, or its entries are asked for, with which it fails or gives the value. -/
theorem removeFrom_cases {key : K} {ref : BlockRef} {e e' : Engine K V}
    {r : Except MapError (Option V)} (h : Act.run (removeFrom key ref) e = (r, e')) :
    (e.blocks[ref]? = none ∧ r = .ok none ∧ e' = e) ∨
    ∃ b, e.blocks[ref]? = some b ∧
      ((b.covers key = false ∧ r = .ok none ∧ e' = e) ∨
        (b.covers key = true ∧
          ((∃ cause, Act.run (access ref b) e = (.error cause, e') ∧ r = .error cause) ∨
            ∃ es e₁, Act.run (access ref b) e = (.ok es, e₁) ∧ r = .ok (Entries.value? es key) ∧
              e' = (e₁.setBlock ref ((b.loaded es).erase es key)).touch ref b))) := by
  simp only [removeFrom, Act.run_bind, Act.run_get] at h
  split at h
  · rename_i b hb
    refine Or.inr ⟨b, hb, ?_⟩
    split at h
    · rename_i hcovers
      obtain ⟨rfl, rfl⟩ := Prod.mk.inj h
      exact Or.inl ⟨by simpa using hcovers, rfl, rfl⟩
    · rename_i hcovers
      refine Or.inr ⟨by simpa using hcovers, ?_⟩
      rcases Act.bind_cases h with hfailed | ⟨es, e₁, haccess, h⟩
      · exact Or.inl hfailed
      · obtain ⟨rfl, rfl⟩ := Prod.mk.inj h
        exact Or.inr ⟨es, e₁, haccess, rfl, rfl⟩
  · rename_i hnone
    obtain ⟨rfl, rfl⟩ := Prod.mk.inj h
    exact Or.inl ⟨Option.eq_none_iff_forall_ne_some.2 hnone, rfl, rfl⟩

/-- What comes of removing the entry of a key from a block that there is. -/
theorem removeFrom_at {key : K} {ref : BlockRef} {e e' : Engine K V} {b : Block K V}
    {r : Except MapError (Option V)} (hb : e.blocks[ref]? = some b)
    (h : Act.run (removeFrom key ref) e = (r, e')) :
    (b.covers key = false ∧ r = .ok none ∧ e' = e) ∨
    (b.covers key = true ∧
      ((∃ cause, Act.run (access ref b) e = (.error cause, e') ∧ r = .error cause) ∨
        ∃ es e₁, Act.run (access ref b) e = (.ok es, e₁) ∧ r = .ok (Entries.value? es key) ∧
          e' = (e₁.setBlock ref ((b.loaded es).erase es key)).touch ref b)) := by
  rcases removeFrom_cases h with ⟨hnone, -, -⟩ | ⟨b', hb', hedit⟩
  · simp [hb] at hnone
  · obtain rfl := Option.some.inj (hb.symm.trans hb')
    exact hedit

theorem records_remove (m : Nat) (key : K) : Act.Records (remove m key : Act K V (Option V)) := by
  refine Act.records_get.bind fun e => ?_
  split
  · refine Act.records_foldlM
      (fun found group => Act.Records.bind ?_ fun value => Act.records_pure _) _ _
    exact Act.records_foldlM (fun found ref =>
      (records_removeFrom key ref).bind fun value => Act.records_pure _) group none
  · exact Act.records_pure _

end Edit

/-! ### Snapshots -/

omit [LE K] [DecidableLE K] in
theorem records_snapshotBlock (ref : BlockRef) :
    Act.Records (snapshotBlock ref : Act K V (Option (BlockInfo K))) := by
  refine (records_persist ref).bind fun _ => Act.records_get.bind fun e => ?_
  split
  · split
    · exact Act.records_pure _
    · exact (records_notify _).bind fun _ => Act.records_pure _
  · exact Act.records_pure _

omit [LE K] [DecidableLE K] in
theorem records_snapshot (m : Nat) : Act.Records (snapshot m : Act K V (Snapshot K)) := by
  refine Act.records_get.bind fun e => ?_
  split
  · exact (Act.records_mapM records_snapshotBlock _).bind fun _ => Act.records_pure _
  · exact Act.records_pure _

omit [LE K] [DecidableLE K] in
/-- What comes of describing a block: it could not be written, or it is left out if it is empty. -/
theorem snapshotBlock_cases {ref : BlockRef} {e e' : Engine K V}
    {r : Except MapError (Option (BlockInfo K))} (h : Act.run (snapshotBlock ref) e = (r, e')) :
    (∃ cause, Act.run (persist ref) e = (.error cause, e') ∧ r = .error cause) ∨
    ∃ e₁, Act.run (persist ref) e = (.ok (), e₁) ∧
      ((e₁.blocks[ref]? = none ∧ r = .ok none ∧ e' = e₁) ∨
        ∃ b, e₁.blocks[ref]? = some b ∧
          ((b.size ≠ 0 ∧ r = .ok (some b.info) ∧ e' = e₁) ∨
            (b.size = 0 ∧ r = .ok none ∧ e' = e₁.notify (.emptyBlockDropped b.id)))) := by
  rcases Act.bind_cases h with hfailed | ⟨_, e₁, hpersist, h⟩
  · exact Or.inl hfailed
  refine Or.inr ⟨e₁, hpersist, ?_⟩
  simp only [Act.run_bind, Act.run_get] at h
  split at h
  · rename_i b hb
    refine Or.inr ⟨b, hb, ?_⟩
    split at h
    · rename_i hsize
      obtain ⟨rfl, rfl⟩ := Prod.mk.inj h
      exact Or.inl ⟨hsize, rfl, rfl⟩
    · rename_i hsize
      obtain ⟨rfl, rfl⟩ := Prod.mk.inj h
      exact Or.inr ⟨by simpa using hsize, rfl, rfl⟩
  · rename_i hnone
    obtain ⟨rfl, rfl⟩ := Prod.mk.inj h
    exact Or.inl ⟨Option.eq_none_iff_forall_ne_some.2 hnone, rfl, rfl⟩

omit [LE K] [DecidableLE K] in
/-- What comes of taking a snapshot: there is no such map, or its blocks are described. -/
theorem snapshot_cases {m : Nat} {e e' : Engine K V} {r : Except MapError (Snapshot K)}
    (h : Act.run (snapshot m) e = (r, e')) :
    (e.maps[m]? = none ∧ r = .ok ⟨[]⟩ ∧ e' = e) ∨
    ∃ state infos, e.maps[m]? = some state ∧
      Act.run (state.directory.refs.mapM snapshotBlock) e = (infos, e') ∧
      r = infos.map fun infos => ⟨infos.filterMap id⟩ := by
  simp only [snapshot, Act.run_bind, Act.run_get] at h
  split at h
  · rename_i state hm
    refine Or.inr ⟨state, ?_⟩
    rcases Act.bind_cases h with ⟨cause, hinfos, rfl⟩ | ⟨infos, e₁, hinfos, h⟩
    · exact ⟨_, hm, hinfos, rfl⟩
    · obtain ⟨rfl, rfl⟩ := Prod.mk.inj h
      exact ⟨_, hm, hinfos, rfl⟩
  · rename_i hnone
    obtain ⟨rfl, rfl⟩ := Prod.mk.inj h
    exact Or.inl ⟨Option.eq_none_iff_forall_ne_some.2 hnone, rfl, rfl⟩

omit [Wire K] [Wire V] [LE K] [DecidableLE K] in
theorem extends_clear (m : Nat) (e : Engine K V) : e.Extends (e.clear m) := by
  have hdiscard (e : Engine K V) (ref : BlockRef) : e.Extends (e.discard ref) := by
    unfold discard
    split
    · exact .refl e
    · exact (extends_removePage _ _ _).congr rfl rfl
  unfold clear
  split
  · exact .refl e
  · exact (extends_foldl hdiscard _ e).trans ⟨List.suffix_cons _ _, rfl⟩

omit [Wire K] [Wire V] [LE K] [DecidableLE K] in
theorem extends_drop (m : Nat) (e : Engine K V) : e.Extends (e.drop m) := by
  have hrelease (e : Engine K V) (ref : BlockRef) : e.Extends (e.release ref) :=
    ⟨List.suffix_refl _, rfl⟩
  unfold drop
  split
  · exact .refl e
  · exact (extends_clear m e).trans (extends_foldl hrelease _ _)

omit [Wire K] [Wire V] in
theorem extends_restore (m : Nat) (snapshot : Snapshot K) (e : Engine K V) :
    e.Extends (e.restore m snapshot) := by
  have hblock (e : Engine K V) (info : BlockInfo K) : e.Extends (restoreBlock m e info) := by
    unfold restoreBlock
    split
    · exact .refl e
    · exact ⟨List.suffix_cons _ _, rfl⟩
  have hnotice := extends_record (.noticed (.mapRestored snapshot.blocks.length)) e
  exact (hnotice.trans (extends_clear m _)).trans (extends_foldl hblock _ _)

end Engine

end PagedMap
