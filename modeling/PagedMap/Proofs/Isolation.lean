import Mathlib
import PagedMap.Proofs.Partition
import PagedMap.Proofs.Passes

/-!
# A request for one key reads one page

A request for one key (`Request.point?`) asks page stores for a page at most once, and only for that
of the block which the directory names for the key (`Engine.Routed`).  A put looks this block up.
The other requests go through the directory and on along the successors, but a block whose bounds do
not cover the key is passed over before it is read, and no two blocks of a map cover one key.

A scan to its end and a scan to its first value read blocks in the same way (`Scan.Reads`), so what
is said of reading is shown once for both, by induction along the blocks read.

Evictions only write pages.  So if the block is in memory, or if none covers the key and nothing is
put, the answer is that of the ordered map, whatever the page store refuses
(`Session.isolated_run`).
-/

namespace PagedMap

variable {K V : Type}

/-- Whether a page store was asked for a page. -/
def Event.isLoad : Event K V → Bool
  | pageLoaded .. => true
  | _ => false

/-- The map and the key of a request for one key. -/
def Request.point? : Request K V → Option (Nat × K)
  | put m key _ | remove m key | get m key | search m key | contains m key => some (m, key)
  | _ => none

namespace Engine

/-- The pages that page stores were asked for, the latest first. -/
def loads (e : Engine K V) : List (Event K V) := e.events.filter Event.isLoad

/-- From one engine to the other no page store was asked for a page. -/
def Silent (e e' : Engine K V) : Prop := e'.loads = e.loads

/-- From one engine to the other page stores were asked for no page but that of a block which was
not in memory, and once at most. -/
def Asks (b : Block K V) (e e' : Engine K V) : Prop :=
  Silent e e' ∨ b.entries = none ∧ ∃ r, e'.loads = .pageLoaded b.home.store b.page r :: e.loads

variable {e e' e'' : Engine K V} {b : Block K V} {ref : BlockRef} {m : Nat}

theorem Silent.trans (h : Silent e e') (h' : Silent e' e'') : Silent e e'' := Eq.trans h' h

theorem Asks.trans_silent (h : Asks b e e') (h' : Silent e' e'') : Asks b e e'' := by
  rcases h with h | ⟨hnone, r, h⟩
  · exact Or.inl (h.trans h')
  · exact Or.inr ⟨hnone, r, Eq.trans h' h⟩

theorem silent_record {event : Event K V} (h : event.isLoad = false) (e : Engine K V) :
    Silent e (e.record event) := List.filter_cons_of_neg (by simp [h])

/-- Whoever asks for no page is refused none. -/
theorem Silent.refusedLoads_eq (h : Silent e e') : e'.refusedLoads = e.refusedLoads := by
  have hcount (e : Engine K V) : e.refusedLoads = e.loads.countP Event.isRefusedLoad := by
    rw [refusedLoads, loads, List.countP_filter]
    refine List.countP_congr fun event _ => ?_
    unfold Event.isRefusedLoad Event.isLoad
    split <;> simp
  rw [hcount, hcount, h]

variable [Wire K] [Wire V]

/-! ### Writing pages -/

theorem silent_createPage {store : Nat} {entries : List (K × V)} {r : Except StoreError Nat}
    (h : e.createPage store entries = (r, e')) : Silent e e' := by
  unfold createPage at h
  split at h <;> obtain ⟨-, rfl⟩ := Prod.mk.inj h
  · rfl
  · exact silent_record rfl _

theorem silent_persist {r : Except MapError Unit} (h : Act.run (persist ref) e = (r, e')) :
    Silent e e' := by
  rcases persist_cases h with
    ⟨-, rfl, -⟩ | ⟨b, es, -, -, -, ⟨cause, hcreate, -⟩ | ⟨page, e₁, hcreate, -, rfl⟩⟩
  · rfl
  · exact silent_createPage hcreate
  · exact (silent_createPage hcreate).trans (silent_record rfl _)

theorem silent_unload {page : Nat} {r : Except MapError Bool}
    (h : Act.run (unload ref page) e = (r, e')) : Silent e e' := by
  rcases unload_cases h with ⟨rfl, -⟩ | ⟨b, es, -, -, hpersist⟩
  · rfl
  have hset : Silent e (e.setBlock ref { b with tracked := false }) := rfl
  rcases hpersist with ⟨cause, hpersist, -⟩ | ⟨e₁, hpersist, -, rfl⟩
  · exact hset.trans (silent_persist hpersist)
  · exact (hset.trans (silent_persist hpersist)).trans (silent_record rfl _)

/-- An eviction reads no page, whatever comes of it. -/
theorem silent_evict (page : Page BlockRef) (e : Engine K V) : Silent e (e.evict page) := by
  unfold evict
  split
  · exact (silent_unload rfl).trans (silent_record rfl _)
  · rfl

omit [Wire K] [Wire V] in
theorem silent_hitPage (policy : Nat) (page : Page BlockRef) (e : Engine K V) :
    Silent e (e.hitPage policy page) := by
  dsimp only [hitPage]
  split <;> exact silent_record rfl _

theorem silent_addPage (policy : Nat) (page : Page BlockRef) (e : Engine K V) :
    Silent e (e.addPage policy page) := by
  have hreport : Silent e (e.record (.reported .add policy page)) := silent_record rfl _
  dsimp only [addPage]
  split
  · exact hreport
  · split
    · exact hreport.trans (silent_evict _ _)
    · exact hreport

theorem silent_touch (ref : BlockRef) (b : Block K V) (e : Engine K V) :
    Silent e (e.touch ref b) := by
  unfold touch
  split
  · exact silent_hitPage _ _ _
  · exact silent_addPage _ _ _

theorem silent_report (ref : BlockRef) (b : Block K V) (product : Option (BlockRef × Block K V))
    (e : Engine K V) : Silent e (e.report ref b product) := by
  unfold report
  split
  · exact (silent_touch _ _ _).trans (silent_addPage _ _ _)
  · exact silent_touch _ _ _

omit [Wire K] [Wire V] in
theorem silent_settle [LE K] [DecidableLE K] [Sized K] [Sized V] (m : Nat) (ref : BlockRef)
    (grown : Block K V) (e : Engine K V) : Silent e (settle m ref grown e).2 := by
  dsimp only [settle, split]
  split
  · split
    · rfl
    · split
      · rfl
      · exact silent_record rfl _
  · rfl

/-! ### One block -/

variable [LE K] [DecidableLE K]

/-- Whoever needs the entries of a block asks for its page if they are not in memory. -/
theorem asks_access {r : Except MapError (Entries K V)} (h : Act.run (access ref b) e = (r, e')) :
    Asks b e e' := by
  have hasks {r₁ : Except StoreError (List (K × V))} {e₁ : Engine K V} (hes : b.entries = none)
      (hload : e.loadPage b.home.store b.page = (r₁, e₁)) : Asks b e e₁ := by
    rcases events_loadPage hload with hevents | hevents
    · exact Or.inl (congrArg (List.filter Event.isLoad) hevents)
    · exact Or.inr ⟨hes, _, by rw [loads, hevents, List.filter_cons_of_pos rfl]; rfl⟩
  rcases access_cases h with ⟨es, -, -, rfl⟩ | ⟨hes, ⟨c, hload, -⟩ | ⟨xs, e₁, hload, -, rfl⟩⟩
  · exact Or.inl rfl
  · exact hasks hes hload
  · exact (hasks hes hload).trans_silent rfl

theorem asks_valuesIn {first last : Option K} {r : Except MapError (List V × Option BlockRef)}
    (hb : e.blocks[ref]? = some b) (h : Act.run (valuesIn ref first last) e = (r, e')) :
    Asks b e e' := by
  rcases valuesIn_at hb h with ⟨-, -, rfl⟩ |
    ⟨-, ⟨cause, haccess, -⟩ | ⟨es, e₁, haccess, -, rfl⟩⟩
  · exact Or.inl rfl
  · exact asks_access haccess
  · exact (asks_access haccess).trans_silent (silent_touch ref b _)

/-- With the values of a block comes its successor. -/
theorem next_of_valuesIn {first last : Option K} {values : List V} {next : Option BlockRef}
    (hb : e.blocks[ref]? = some b)
    (h : Act.run (valuesIn ref first last) e = (.ok (values, next), e')) : next = b.next := by
  rcases valuesIn_at hb h with ⟨-, hr, -⟩ | ⟨-, ⟨cause, -, hr⟩ | ⟨es, e₁, -, hr, -⟩⟩
  · exact (Prod.mk.inj (Except.ok.inj hr)).2
  · simp at hr
  · exact (Prod.mk.inj (Except.ok.inj hr)).2

/-- A block whose bounds do not overlap a range is passed over. -/
theorem valuesIn_of_not_overlaps {first last : Option K} (hb : e.blocks[ref]? = some b)
    (h : b.overlaps first last = false) :
    Act.run (valuesIn ref first last) e = (.ok ([], b.next), e) := by
  simp [valuesIn, Act.run_bind, hb, h]

section Edit

variable [Sized K] [Sized V] {key : K} {value : V}

theorem asks_removeFrom {r : Except MapError (Option V)} (hb : e.blocks[ref]? = some b)
    (h : Act.run (removeFrom key ref) e = (r, e')) : Asks b e e' := by
  rcases removeFrom_at hb h with ⟨-, -, rfl⟩ |
    ⟨-, ⟨cause, haccess, -⟩ | ⟨es, e₁, haccess, -, rfl⟩⟩
  · exact Or.inl rfl
  · exact asks_access haccess
  · exact (asks_access haccess).trans_silent (silent_touch ref b _)

theorem asks_putInto {r : Except MapError (Attempt V)} (hb : e.blocks[ref]? = some b)
    (h : Act.run (putInto m ref key value) e = (r, e')) : Asks b e e' := by
  rcases putInto_cases m ref key value e with ⟨-, hrun⟩ | ⟨b', hb', hpast⟩
  · obtain ⟨-, rfl⟩ := Prod.mk.inj (hrun.symm.trans h)
    exact Or.inl rfl
  · obtain rfl := Option.some.inj (hb.symm.trans hb')
    rw [run_putInto hb hpast] at h
    rcases haccess : Act.run (access ref b) e with ⟨cause | es, e₁⟩ <;> rw [haccess] at h <;>
      obtain ⟨-, rfl⟩ := Prod.mk.inj h
    · exact asks_access haccess
    · exact (asks_access haccess).trans_silent
        ((silent_settle _ _ _ _).trans (silent_report _ _ _ _))

end Edit

end Engine

/-! ### Going through blocks -/

namespace Scan

variable [Wire K] [Wire V] [LE K] [DecidableLE K]

open Engine (valuesIn valuesWithin nextWithin)

/-- What becomes of an engine while a scan reads some of the blocks that it comes to, one after the
other, until it stops or cannot read one. -/
inductive Reads : Scan K V → Engine K V → Engine K V → Prop
  | stop (s : Scan K V) (e : Engine K V) : Reads s e e
  | read {s s' : Scan K V} {e e₁ e' : Engine K V} {ref : BlockRef} {values : List V}
      {next : Option BlockRef} (hvisit : s.visit? e = some (ref, s'))
      (hvalues : Act.run (valuesIn ref s'.first s'.last) e = (.ok (values, next), e₁))
      (hrest : Reads (s'.filled e₁ values next) e₁ e') : Reads s e e'
  | fail {s s' : Scan K V} {e e' : Engine K V} {ref : BlockRef} {cause : MapError}
      (hvisit : s.visit? e = some (ref, s'))
      (hvalues : Act.run (valuesIn ref s'.first s'.last) e = (.error cause, e')) : Reads s e e'

variable {s s' : Scan K V} {e e' : Engine K V} {fuel : Nat}

theorem reads_valuesWithin {r : Except MapError (List V)}
    (h : Act.run (valuesWithin fuel s) e = (r, e')) : Reads s e e' := by
  induction fuel using Nat.strong_induction_on generalizing s e r with
  | _ fuel ih =>
    rcases Engine.valuesWithin_cases h with ⟨-, -, rfl⟩ | ⟨left, ref, s₁, rfl, hvisit,
      ⟨cause, hvalues, -⟩ | ⟨values, next, e₁, rest, hvalues, hrest, -⟩⟩
    · exact .stop s _
    · exact .fail hvisit hvalues
    · exact .read hvisit hvalues (ih left left.lt_succ_self hrest)

theorem reads_nextWithin {value : Option (Except MapError V)}
    (h : nextWithin (fun _ e => e) fuel s e = (value, s', e')) : Reads s e e' := by
  induction fuel using Nat.strong_induction_on generalizing s e with
  | _ fuel ih =>
    rcases Engine.nextWithin_cases h with ⟨v, buffer, -, -, -, rfl⟩ | ⟨-, -, -, -, rfl⟩ |
      ⟨left, ref, s₁, r, e₁, -, rfl, hvisit, hvalues,
        ⟨cause, rfl, -, -, rfl⟩ | ⟨values, next, rfl, hrest⟩⟩
    · exact .stop s _
    · exact .stop s _
    · exact .fail hvisit hvalues
    · exact .read hvisit hvalues (ih left left.lt_succ_self hrest)

theorem Reads.suffix (h : Reads s e e') : e.events <:+ e'.events := by
  have hvalues {ref : BlockRef} {first last : Option K} {e e' : Engine K V}
      {r : Except MapError (List V × Option BlockRef)}
      (h : Act.run (valuesIn ref first last) e = (r, e')) : e.events <:+ e'.events := by
    have hrecords := Engine.records_valuesIn ref first last e
    rw [h] at hrecords
    exact hrecords.events
  induction h with
  | stop => exact List.suffix_refl _
  | read _ hread _ ih => exact (hvalues hread).trans ih
  | fail _ hread => exact hvalues hread

/-! ### A scan for one key -/

/-- Of the layout `t₀` the scan has still to come to `t`, and it is for one key. -/
def Seeks (t₀ : Layout K V) (key : K) (s : Scan K V) (t : Layout K V) : Prop :=
  s.Awaits t₀ t ∧ s.first = some key ∧ s.last = some key

variable {t₀ t : Layout K V} {lastId : Nat} {key : K} {limit : Option Nat}

/-- A scan for one key asks for the page of the block that it comes to, or passes over the block if
the key is not within its bounds, and goes on behind it. -/
theorem Seeks.read {ref : BlockRef} {r : Except MapError (List V × Option BlockRef)}
    (h : Seeks t₀ key s t) (hs : t₀.Tiled lastId) (hshows : ∀ x ∈ t₀, e.Shows x)
    (hvisit : s.visit? e = some (ref, s'))
    (hvalues : Act.run (valuesIn ref s'.first s'.last) e = (r, e')) :
    ∃ skipped x post b, t = skipped ++ x :: post ∧ e.blocks[x.ref]? = some b ∧
      b.covers key = x.block.covers key ∧ Engine.Asks b e e' ∧
      (x.block.covers key = false → e' = e) ∧
      ∀ values next, r = .ok (values, next) → (∀ y ∈ t₀, e'.Shows y) →
        Seeks t₀ key (s'.filled e' values next) post := by
  obtain ⟨ha, hfirst, hlast⟩ := h
  rcases ha.visit? hs hshows with ⟨hnone, -⟩ |
    ⟨skipped, x, post, s'', rfl, -, hvisit', hfirst', hlast', hawaits⟩
  · simp [hvisit] at hnone
  obtain ⟨rfl, rfl⟩ := Prod.mk.inj (Option.some.inj (hvisit.symm.trans hvisit'))
  obtain ⟨b, hb, -, hxb⟩ := hshows x (ha.suffix.subset (by simp))
  have hcovers : b.covers key = x.block.covers key := by rw [hxb]; rfl
  have hnext : b.next = x.block.next := by rw [hxb]; rfl
  refine ⟨skipped, x, post, b, rfl, hb, hcovers, Engine.asks_valuesIn hb hvalues, fun hnot => ?_,
    fun values next hr hshows' => ⟨?_, hfirst'.trans hfirst, hlast'.trans hlast⟩⟩
  · have hnone : b.overlaps s'.first s'.last = false := by
      rw [hfirst', hlast', hfirst, hlast, Bool.eq_false_iff]
      intro hoverlaps
      obtain ⟨hmax, hmin⟩ := Block.overlaps_iff.1 hoverlaps
      rw [← hcovers, Block.covers_iff.2 ⟨hmin key rfl, hmax key rfl⟩] at hnot
      simp at hnot
    exact (Prod.mk.inj (hvalues.symm.trans (Engine.valuesIn_of_not_overlaps hb hnone))).2
  · subst hr
    rw [Engine.next_of_valuesIn hb hvalues, hnext]
    exact hawaits e' values hshows'

/-- A scan for a key that is within no bounds does nothing. -/
theorem Reads.eq_of_not_covers (h : Reads s e e') (hs : t₀.Tiled lastId)
    (hshows : ∀ x ∈ t₀, e.Shows x) (hseek : Seeks t₀ key s t)
    (hnot : ∀ x ∈ t, x.block.covers key = false) : e' = e := by
  induction h generalizing t with
  | stop => rfl
  | read hvisit hvalues _ ih =>
    obtain ⟨skipped, x, post, b, rfl, -, -, -, hsame, hnext⟩ :=
      hseek.read hs hshows hvisit hvalues
    obtain rfl := hsame (hnot x (by simp))
    exact ih hshows (hnext _ _ rfl hshows) fun y hy => hnot y (by simp [hy])
  | fail hvisit hvalues =>
    obtain ⟨skipped, x, post, b, rfl, -, -, -, hsame, -⟩ := hseek.read hs hshows hvisit hvalues
    exact hsame (hnot x (by simp))

variable [Lossless K] [Lossless V] [Std.IsLinearOrder K]

/-- A scan for one key asks at most for the page of a block that covers the key.  The blocks before
it are passed over, and so are those behind it, since no other block covers the key. -/
theorem Reads.asks (h : Reads s e e') (hs : t₀.Tiled lastId) (hshows : ∀ x ∈ t₀, e.Shows x)
    (hroomy : e.Roomy limit) (hw : e'.Within limit) (hseek : Seeks t₀ key s t) :
    Engine.Silent e e' ∨ ∃ x ∈ t, ∃ b ∈ e.blocks[x.ref]?, x.block.covers key = true ∧
      Engine.Asks b e e' := by
  induction h generalizing t with
  | stop => exact Or.inl rfl
  | read hvisit hvalues hrest ih =>
    obtain ⟨skipped, x, post, b, rfl, hb, -, hasks, hsame, hnext⟩ :=
      hseek.read hs hshows hvisit hvalues
    cases hc : x.block.covers key with
    | false =>
      obtain rfl := hsame hc
      rcases ih hshows hroomy hw (hnext _ _ rfl hshows) with hsilent | ⟨y, hy, hasked⟩
      · exact Or.inl hsilent
      · exact Or.inr ⟨y, by simp [hy], hasked⟩
    | true =>
      have hk : Engine.Keeps limit _ _ := Engine.keeps_valuesIn hvalues
      have hshows₁ := fun y hy => hk.shows (hw.of_suffix hrest.suffix) hroomy (hshows y hy)
      -- no block behind the one that covers the key covers it, so no further page is asked for
      obtain ⟨pre, hpre⟩ := hseek.1.suffix
      rw [← List.append_assoc] at hpre
      have hpost := ((hpre ▸ hs).not_covers hc).2
      have hsilent := hrest.eq_of_not_covers hs hshows₁ (hnext _ _ rfl hshows₁) hpost
      exact Or.inr ⟨x, by simp, b, hb, hc, hsilent ▸ hasks⟩
  | fail hvisit hvalues =>
    obtain ⟨skipped, x, post, b, rfl, hb, -, hasks, hsame, -⟩ := hseek.read hs hshows hvisit hvalues
    cases hc : x.block.covers key with
    | false => exact Or.inl (hsame hc ▸ rfl)
    | true => exact Or.inr ⟨x, by simp, b, hb, hc, hasks⟩

end Scan

/-! ### The block that a key is routed to -/

namespace Engine

variable [LE K] [DecidableLE K]

/-- From one engine to the other page stores were asked for no page but that of the block which the
directory of a map names for a key, which was not in memory, and once at most.  It is one of the
blocks that `p` is true of. -/
def Routed (m : Nat) (key : K) (p : Block K V → Prop) (e e' : Engine K V) : Prop :=
  Silent e e' ∨ ∃ state ∈ e.maps[m]?, ∃ ref ∈ state.directory.floor? key, ∃ b ∈ e.blocks[ref]?,
    p b ∧ Asks b e e'

/-- The block that the directory of a map names for a key is in memory, if there is one. -/
def AtHand (e : Engine K V) (m : Nat) (key : K) : Prop :=
  ∀ state ∈ e.maps[m]?, ∀ ref ∈ state.directory.floor? key, ∀ b ∈ e.blocks[ref]?,
    b.entries.isSome = true

/-- No block in the directory of a map covers a key. -/
def Uncovered (e : Engine K V) (m : Nat) (key : K) : Prop :=
  ∀ state ∈ e.maps[m]?, ∀ ref ∈ state.directory.refs, ∀ b ∈ e.blocks[ref]?, b.covers key = false

variable {e e' : Engine K V} {m : Nat} {state : MapState K} {key : K} {p p' : Block K V → Prop}
  {limit : Option Nat}

theorem Routed.mono (h : Routed m key p e e') (hp : ∀ b, p b → p' b) : Routed m key p' e e' := by
  rcases h with h | ⟨state, hm, ref, hfloor, b, hb, hpb, hasks⟩
  · exact Or.inl h
  · exact Or.inr ⟨state, hm, ref, hfloor, b, hb, hp b hpb, hasks⟩

/-- A block in memory is not asked for. -/
theorem Routed.silent_of_atHand (h : Routed m key p e e') (hhand : e.AtHand m key) :
    Silent e e' := by
  rcases h with h | ⟨state, hm, ref, hfloor, b, hb, -, h | ⟨hnone, -⟩⟩
  · exact h
  · exact h
  · have hsome := hhand state hm ref hfloor b hb
    simp [hnone] at hsome

/-- A block that does not cover the key is not asked for. -/
theorem Routed.silent_of_uncovered (h : Routed m key p e e') (hp : ∀ b, p b → b.covers key = true)
    (hnot : e.Uncovered m key) : Silent e e' := by
  rcases h with h | ⟨state, hm, ref, hfloor, b, hb, hpb, -⟩
  · exact h
  · have hfalse := hnot state hm ref (Directory.floor?_mem_refs hfloor) b hb
    simp [hp b hpb] at hfalse

variable [Wire K] [Wire V] [Std.IsLinearOrder K]

/-- Of the blocks of a map, the directory names the one that covers the key. -/
theorem Asks.routed {x : Stretch K V} {b : Block K V} (h : Asks b e e') (hs : e.AllHold limit)
    (hm : e.maps[m]? = some state) (hmem : x ∈ e.layout m) (hb : e.blocks[x.ref]? = some b)
    (hc : x.block.covers key = true) : Routed m key (fun b => b.covers key = true) e e' := by
  have hh := hs.holds m state hm
  obtain ⟨b', hb', hcovers⟩ := (hh.shows x hmem).exists_covers key
  obtain rfl := Option.some.inj (hb.symm.trans hb')
  obtain ⟨pre, post, ht⟩ := List.append_of_mem hmem
  have hfloor : state.directory.floor? key = some x.ref := by
    rw [hh.directory, ht]
    exact (ht ▸ hh.tiled).floor?_of_covers hc
  exact Or.inr ⟨state, hm, x.ref, hfloor, b, hb, hcovers.trans hc, h⟩

variable [Lossless K] [Lossless V]

theorem routed_of_reads {s : Scan K V} (hs : e.AllHold limit) (hw : e'.Within limit)
    (hm : e.maps[m]? = some state) (hscan : scan m (some key) (some key) e = .ok s)
    (h : s.Reads e e') : Routed m key (fun b => b.covers key = true) e e' := by
  have hh := hs.holds m state hm
  have hbound : ¬ ((some key).isNone ∧ (some key).isNone) := by simp
  obtain ⟨s', hscan', hfirst, hlast, -, ha⟩ := scan_spec hs hm hbound
  obtain rfl := Except.ok.inj (hscan.symm.trans hscan')
  rcases h.asks hh.tiled hh.shows hs.roomy hw ⟨ha, hfirst, hlast⟩ with
    hsilent | ⟨x, hx, b, hb, hc, hasks⟩
  · exact Or.inl hsilent
  · exact hasks.routed hs hm hx hb hc

theorem routed_valuesAt {r : Except MapError (List V)} (hs : e.AllHold limit) (hw : e'.Within limit)
    (hm : e.maps[m]? = some state) (h : Act.run (valuesAt m key) e = (r, e')) :
    Routed m key (fun b => b.covers key = true) e e' := by
  rcases valuesBetween_cases h with ⟨cause, -, -, rfl⟩ | ⟨s, hscan, hrun⟩
  · exact Or.inl rfl
  · exact routed_of_reads hs hw hm hscan (Scan.reads_valuesWithin hrun)

theorem routed_get? {r : Except MapError (Option V)} (hs : e.AllHold limit) (hw : e'.Within limit)
    (hm : e.maps[m]? = some state) (h : Act.run (get? m key) e = (r, e')) :
    Routed m key (fun b => b.covers key = true) e e' := by
  rcases get?_cases h with ⟨cause, -, -, rfl⟩ | ⟨s, value, s', hscan, hnext, -⟩
  · exact Or.inl rfl
  · exact routed_of_reads hs hw hm hscan (Scan.reads_nextWithin hnext)

theorem routed_contains {r : Except MapError Bool} (hs : e.AllHold limit) (hw : e'.Within limit)
    (hm : e.maps[m]? = some state) (h : Act.run (contains m key) e = (r, e')) :
    Routed m key (fun b => b.covers key = true) e e' := by
  rw [run_contains] at h
  obtain ⟨-, rfl⟩ := Prod.mk.inj h
  exact routed_get? hs hw hm rfl

variable [Sized K] [Sized V] {value : V}

theorem routed_remove {r : Except MapError (Option V)} (hs : e.AllHold limit) (hw : e'.Within limit)
    (hm : e.maps[m]? = some state) (h : Act.run (remove m key) e = (r, e')) :
    Routed m key (fun b => b.covers key = true) e e' := by
  by_cases hcovers : ∃ x ∈ e.layout m, x.block.covers key = true
  · obtain ⟨x, hmem, hc⟩ := hcovers
    obtain ⟨pre, post, ht⟩ := List.append_of_mem hmem
    obtain ⟨b, hb, -⟩ := (hs.holds m state hm).shows x hmem
    exact (asks_removeFrom hb (remove_of_covers hs hw hm ht hc h)).routed hs hm hmem hb hc
  · have hnot : ∀ x ∈ e.layout m, x.block.covers key = false := fun x hmem =>
      Bool.eq_false_iff.2 fun hc => hcovers ⟨x, hmem, hc⟩
    rw [remove_of_not_covers hs hm hnot] at h
    obtain ⟨-, rfl⟩ := Prod.mk.inj h
    exact Or.inl rfl

omit [Std.IsLinearOrder K] [Lossless K] [Lossless V] in
/-- A put asks for the block that the directory names, whether it covers the key or not. -/
theorem routed_put {r : Except MapError (Option V)} (h : Act.run (put m key value) e = (r, e')) :
    Routed m key (fun _ => True) e e' := by
  obtain rfl : (Act.run (putOnce m key value) e).2 = e' := by rw [← snd_run_put, h]
  rcases putOnce_cases m key value e with ⟨r, hrun, -⟩ | ⟨state, hm, hfloor, hrun⟩ |
    ⟨state, ref, hm, hfloor, hrun⟩
  · rw [hrun]
    exact Or.inl rfl
  · rw [hrun]
    exact Or.inl (silent_addPage _ _ _)
  · rw [hrun]
    rcases putInto_cases m ref key value e with ⟨-, hagain⟩ | ⟨b, hb, -⟩
    · rw [hagain]
      exact Or.inl rfl
    · exact Or.inr ⟨state, hm, ref, hfloor, b, hb, trivial, asks_putInto hb rfl⟩

variable {q : Request K V} {a : Answer K V}

/-- Whatever comes of a request for one key, page stores were asked for no page but that of the
block the directory names, and not even for this one if it does not cover the key and nothing is
put. -/
theorem routed_serve (hs : e.AllHold limit) (hw : e'.Within limit) (hq : q.point? = some (m, key))
    (h : e.serve q = (a, e')) :
    Routed m key (fun b => q.scope = .put ∨ b.covers key = true) e e' := by
  unfold serve at h
  split at h
  · rename_i htarget
    have hmap (hq : q.target? = some m) : ∃ state, e.maps[m]? = some state := by
      have hlt : m < e.maps.length := by simpa [hq] using htarget
      exact ⟨_, List.getElem?_eq_getElem hlt⟩
    cases q <;> simp only [Request.point?, Option.some.injEq, Prod.mk.injEq, reduceCtorEq] at hq <;>
      obtain ⟨rfl, rfl⟩ := hq <;> obtain ⟨state, hm⟩ := hmap rfl <;>
      obtain ⟨-, rfl⟩ := Prod.mk.inj h
    case put => exact (routed_put rfl).mono fun _ _ => Or.inl rfl
    case remove => exact (routed_remove hs hw hm rfl).mono fun _ => Or.inr
    case get => exact (routed_get? hs hw hm rfl).mono fun _ => Or.inr
    case search => exact (routed_valuesAt hs hw hm rfl).mono fun _ => Or.inr
    case contains => exact (routed_contains hs hw hm rfl).mono fun _ => Or.inr
  · obtain ⟨-, rfl⟩ := Prod.mk.inj h
    exact Or.inl rfl

/-- A request for one key that asks for no page is answered right. -/
theorem serve_of_silent (hs : e.AllHold limit) (hw : e'.Within limit)
    (hq : q.point? = some (m, key)) (h : e.serve q = (a, e')) (hsilent : Silent e e') :
    e.mirror.Accepts q a ∧ e'.mirror = e.mirror.after q ∧ ∀ c, a ≠ .failed (.storage c) := by
  have hout : e.mirror.Accepts q a ∧ e'.mirror = e.mirror.after q := by
    refine (serve_spec hs hw h).outcome.resolve_left ?_
    rintro ⟨⟨m', -, ⟨-, hunread⟩ | ⟨cause, rfl, -⟩⟩, -⟩
    · exact hunread.refusedLoads_lt.ne' hsilent.refusedLoads_eq
    · simp [Request.point?] at hq
  refine ⟨hout.1, hout.2, ?_⟩
  rintro c rfl
  rcases (Reference.after_of_failed hout.1).2 with ⟨n, rfl⟩ | hcause
  · simp [Request.point?] at hq
  · exact hcause c rfl

end Engine

namespace Session

variable [Wire K] [Wire V] [LE K] [DecidableLE K] [Std.IsLinearOrder K] [Sized K] [Sized V]
  [Lossless K] [Lossless V]

variable {limit : Option Nat} {policies : List (Policy BlockRef)} {store : Store K V}
  {volume : Volume} {cs : List (Command K V)} {s : Session K V} {faults : Faults} {q : Request K V}
  {a : Answer K V} {e : Engine K V} {m : Nat} {key : K}

/-- In every state that a session comes to and whatever the page store refuses from then on, a
request for one key asks for a page at most once, and only for that of the block which the directory
names for the key.  If nothing is put, it does so only if the block covers the key.

So it is answered and carried out like the ordered map does it, if the block is in memory, or if
nothing is put and no block covers the key. -/
theorem isolated_run (hready : store.Ready limit volume)
    (hrun : (start policies store volume).run cs = s) (hq : q.point? = some (m, key))
    (h : (s.engine.plan 0 faults).serve q = (a, e)) (hw : e.Within limit) :
    s.engine.Routed m key (fun b => q.scope = .put ∨ b.covers key = true) e ∧
      (s.engine.AtHand m key ∨ q.scope ≠ .put ∧ s.engine.Uncovered m key →
        s.engine.mirror.Accepts q a ∧ e.mirror = s.engine.mirror.after q ∧
          ∀ c, a ≠ .failed (.storage c)) := by
  subst hrun
  set e₀ := ((start policies store volume).run cs).engine with he₀
  have hk : Engine.Keeps limit e₀ (e₀.plan 0 faults) := Engine.keeps_plan faults
  have hw₀ : (e₀.plan 0 faults).Within limit := hw.of_suffix (Engine.suffix_serve h)
  have hs : e₀.AllHold limit :=
    (goes_run (documented_start hready) (hw₀.of_suffix hk.events)).documented.engine
  have hs₀ := hk.allHold hw₀ hs
  have hrouted := Engine.routed_serve hs₀ hw hq h
  refine ⟨hrouted, fun hnear => ?_⟩
  have hsilent : Engine.Silent (e₀.plan 0 faults) e := by
    rcases hnear with hhand | ⟨hput, hnot⟩
    · exact hrouted.silent_of_atHand hhand
    · exact hrouted.silent_of_uncovered (fun b hb => hb.resolve_left hput) hnot
  -- what the store refuses does not concern a request that asks for no page
  rw [← hk.mirror_eq hw₀ hs]
  exact Engine.serve_of_silent hs₀ hw hq h hsilent

/-- A block stayed in memory since it could not be written.  Then every call of the page store is
refused, and an entry is put into this block all the same: the other block cannot be written and
stays in memory as well. -/
theorem isolated_run_refused :
    let sizing : Sizing := { maxBlockSize := 12, entryOverhead := 2, blockOverhead := 0 }
    let before : List (Command (Shape.uint .w8).Datum (Shape.uint .w8).Datum) :=
      [.request (.make sizing 0), .request (.put 0 5#8 1#8), .request (.put 0 3#8 2#8),
        .request (.put 0 9#8 3#8), .request (.put 0 7#8 4#8),
        .request (.plan { creates := .first 1 }), .request (.put 0 4#8 5#8)]
    let all : Refusals := { refused := fun _ => true }
    let q : Request (Shape.uint .w8).Datum (Shape.uint .w8).Datum := .put 0 9#8 6#8
    let s := (start [.clock (.empty 1)] .inMemory {}).run before
    let served := (s.engine.plan 0 { loads := all, creates := all }).serve q
    s.engine.AtHand 0 9#8 ∧ s.engine.failedCreations = 1 ∧ served.2.failedCreations = 2 ∧
      s.engine.mirror.Accepts q served.1 ∧ served.2.mirror = s.engine.mirror.after q := by
  intro sizing before all q s served
  have hhand : s.engine.AtHand 0 9#8 := by
    unfold Engine.AtHand
    decide +kernel
  have hfailed : s.engine.failedCreations = 1 := by decide +kernel
  have hfailed' : served.2.failedCreations = 2 := by decide +kernel
  have hready : (Store.inMemory (K := (Shape.uint .w8).Datum) (V := (Shape.uint .w8).Datum)).Ready
      none {} := trivial
  have hrun : (start [.clock (.empty 1)] .inMemory {}).run before = s := rfl
  have hserve : (s.engine.plan 0 { loads := all, creates := all }).serve q = (served.1, served.2) :=
    Prod.mk.eta.symm
  have hq : q.point? = some (0, 9#8) := rfl
  clear_value s served
  have hw : served.2.Within none := Engine.within_none _
  obtain ⟨-, hright⟩ := isolated_run hready hrun hq hserve hw
  obtain ⟨haccepts, hafter, -⟩ := hright (Or.inl hhand)
  exact ⟨hhand, hfailed, hfailed', haccepts, hafter⟩

end Session

end PagedMap
