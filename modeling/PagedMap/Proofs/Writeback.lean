import Mathlib
import PagedMap.Proofs.Mooring
import PagedMap.Proofs.Order

/-!
# Only changed blocks are written

The deeds of a run (`Watch.Does`) are those of its calls, and a call that makes a map or makes one
give up its blocks has none.  However often page stores fail, and whatever descriptions maps are
restored from, a page store is asked to write a block only if the block was changed since it was
last written, and then to write what the last change left.  After a snapshot was taken of a map,
none of its blocks is written until one is changed, and every further snapshot is the same
(`Watch.written_run`).
-/

namespace PagedMap

variable {K V : Type}

namespace Engine

variable {e e' e'' : Engine K V} {m : Nat} {state : MapState K} {ref : BlockRef} {b b' : Block K V}
  {ds past : List (Deed K V)}

/-! ### Snapshots of blocks that need not be written -/

/-- The description of a block in a snapshot, unless the block is left out. -/
def infoOf? (e : Engine K V) (ref : BlockRef) : Option (BlockInfo K) :=
  (e.blocks[ref]?).bind fun b => if b.size ≠ 0 then some b.info else none

/-- The blocks of a map as a snapshot describes them. -/
def describe (e : Engine K V) (m : Nat) : Snapshot K :=
  ⟨(e.maps[m]?).elim [] fun state => state.directory.refs.filterMap e.infoOf?⟩

/-- Blocks that need not be written stay as they are. -/
structure Leaves (e e' : Engine K V) : Prop where
  maps : e'.maps = e.maps
  length : e'.blocks.length = e.blocks.length
  writtenBack : ∀ (ref : BlockRef) (b : Block K V), e.blocks[ref]? = some b → b.WrittenBack →
    e'.blocks[ref]? = some b

theorem Leaves.refl (e : Engine K V) : Leaves e e := ⟨rfl, rfl, fun _ _ hb _ => hb⟩

theorem Leaves.trans (h : Leaves e e') (h' : Leaves e' e'') : Leaves e e'' :=
  ⟨h'.maps.trans h.maps, h'.length.trans h.length,
    fun r b hb hs => h'.writtenBack r b (h.writtenBack r b hb hs) hs⟩

section Snapshot

variable [Wire K] [Wire V]

end Snapshot

/-! ### Calls without deeds -/

/-- Blocks may have been listed from descriptions or given up: their entries leave memory at most,
and nothing is ordered to be written. -/
structure Lapse (e e' : Engine K V) : Prop where
  orders : e'.orders = e.orders
  kept : ∀ (ref : BlockRef) (b : Block K V), e.blocks[ref]? = some b →
    ∃ b', e'.blocks[ref]? = some b' ∧ b'.dirty = b.dirty ∧ b'.home = b.home ∧ b'.info = b.info ∧
    (b'.entries = b.entries ∨ b'.entries = none)
  new : ∀ (ref : BlockRef) (b' : Block K V), e'.blocks[ref]? = some b' → e.blocks[ref]? = none →
    b'.entries = none

theorem Lapse.of_blocks (horders : e'.orders = e.orders) (hblocks : e'.blocks = e.blocks) :
    Lapse e e' := by
  refine ⟨horders, fun r b hb => ⟨b, hblocks ▸ hb, rfl, rfl, rfl, Or.inl rfl⟩,
    fun r b' hb' hnone => ?_⟩
  rw [hblocks, hnone] at hb'
  simp at hb'

theorem Lapse.refl (e : Engine K V) : Lapse e e := .of_blocks rfl rfl

theorem Lapse.trans (h : Lapse e e') (h' : Lapse e' e'') : Lapse e e'' := by
  refine ⟨h'.orders.trans h.orders, fun r b hb => ?_, fun r b'' hb'' hnone => ?_⟩
  · obtain ⟨b', hb', hdirty, hhome, hinfo, hentries⟩ := h.kept r b hb
    obtain ⟨b'', hb'', hdirty', hhome', hinfo', hentries'⟩ := h'.kept r b' hb'
    refine ⟨b'', hb'', hdirty'.trans hdirty, hhome'.trans hhome, hinfo'.trans hinfo, ?_⟩
    rcases hentries' with hsame | hnone
    · rw [hsame]
      exact hentries
    · exact Or.inr hnone
  · cases hb' : e'.blocks[r]? with
    | none => exact h'.new r b'' hb'' hb'
    | some b' =>
      obtain ⟨c, hc, -, -, -, hentries⟩ := h'.kept r b' hb'
      obtain rfl := Option.some.inj (hb''.symm.trans hc)
      rcases hentries with hsame | hnone'
      · exact hsame.trans (h.new r b' hb' hnone)
      · exact hnone'

/-- Blocks of which each becomes what `f` makes of it. -/
theorem Lapse.of_map {f : BlockRef → Block K V → Block K V} (horders : e'.orders = e.orders)
    (hblocks : ∀ r : BlockRef, e'.blocks[r]? = (e.blocks[r]?).map (f r))
    (hf : ∀ r b, (f r b).dirty = b.dirty ∧ (f r b).home = b.home ∧ (f r b).info = b.info ∧
      ((f r b).entries = b.entries ∨ (f r b).entries = none)) : Lapse e e' := by
  refine ⟨horders, fun r b hb => ⟨f r b, by rw [hblocks, hb]; rfl, hf r b⟩,
    fun r b' hb' hnone => ?_⟩
  rw [hblocks, hnone] at hb'
  simp at hb'

section Order

variable [LE K] [DecidableLE K]

end Order

/-- Nothing is read or changed, so what is to be written stays. -/
theorem Lapse.ledger [LE K] (h : Lapse e e') (hl : Ledger past e) : Ledger past e' := by
  have hback (r : BlockRef) (b' : Block K V) (es : Entries K V) (hb' : e'.blocks[r]? = some b')
      (hes : b'.entries = some es) : ∃ b, e.blocks[r]? = some b ∧ b.dirty = b'.dirty ∧
        b.entries = some es := by
    cases hb : e.blocks[r]? with
    | none => simp [h.new r b' hb' hb] at hes
    | some b =>
      obtain ⟨c, hc, hdirty, -, -, hentries⟩ := h.kept r b hb
      obtain rfl := Option.some.inj (hb'.symm.trans hc)
      rcases hentries with hsame | hnone
      · exact ⟨b, rfl, hdirty.symm, hsame.symm.trans hes⟩
      · simp [hnone] at hes
  refine ⟨fun r b' es hb' hes => ?_, fun r b' es hb' hdirty hes => ?_, hl.warranted⟩
  · obtain ⟨b, hb, -, hsame⟩ := hback r b' es hb' hes
    exact hl.ordered r b es hb hsame
  · obtain ⟨b, hb, hd, hsame⟩ := hback r b' es hb' hes
    exact hl.unsaved r b es hb (hd.trans hdirty) hsame

/-- A block that need not be written need not be written when its entries have left memory. -/
theorem Lapse.spared (h : Lapse e e') (hb : e.blocks[ref]? = some b) (hsaved : b.WrittenBack) :
    ∃ b', e'.blocks[ref]? = some b' ∧ b.Spared b' := by
  obtain ⟨b', hb', hdirty, hhome, hinfo, hentries⟩ := h.kept ref b hb
  refine ⟨b', hb', fun hd => ?_, hdirty, hhome, hinfo⟩
  rcases hentries with hsame | hnone
  · exact hsame.trans (hsaved (hdirty.symm.trans hd))
  · exact hnone

/-! ### The deeds of a call -/

variable [Wire K] [Wire V] [LE K] [DecidableLE K] [Sized K] [Sized V] {c : Call K V}

/-- A call is carried out with these deeds, the latest first. -/
inductive Does (e : Engine K V) : Call K V → List (Deed K V) → Prop
  | moves {q : Request K V} {ds : List (Deed K V)} (h : Moves (e.editOf q) e ds (e.serve q).2) :
      Does e (.request q) ds
  | lapse {c : Call K V} (h : Lapse e (e.call c)) : Does e c []

theorem Does.orders (h : e.Does c ds) :
    (e.call c).orders = ds.filterMap Deed.order? ++ e.orders := by
  cases h with
  | moves hmoves => exact hmoves.orders
  | lapse hlapse => exact hlapse.orders

variable [Std.IsLinearOrder K]

theorem Does.ledger (h : e.Does c ds) (hdrift : ∀ r, e.Adrift r → (e.call c).Adrift r)
    (hl : Ledger past e) : Ledger (ds ++ past) (e.call c) := by
  cases h with
  | moves hmoves => exact hmoves.ledger hdrift hl
  | lapse hlapse => exact hlapse.ledger hl

end Engine

/-! ### Runs -/

namespace Watch

variable [Wire K] [Wire V] [LE K] [DecidableLE K] [Sized K] [Sized V]

/-- The calls of a list are carried out with these deeds, the latest first. -/
inductive Does : Watch K V → List (Call K V) → List (Deed K V) → Prop
  | nil (w : Watch K V) : Does w [] []
  | cons {w : Watch K V} {c : Call K V} {cs : List (Call K V)} {ds ds' : List (Deed K V)}
      (h : w.engine.Does c ds) (hs : Does (w.step c) cs ds') : Does w (c :: cs) (ds' ++ ds)

/-- What page stores were asked to write in a run is put down to blocks. -/
theorem Does.orders {w : Watch K V} {cs : List (Call K V)} {ds : List (Deed K V)}
    (h : w.Does cs ds) :
    (w.run cs).engine.orders = ds.filterMap Deed.order? ++ w.engine.orders := by
  induction h with
  | nil w => rfl
  | cons hc _ ih =>
    rw [List.filterMap_append, List.append_assoc, ← hc.orders]
    exact ih

/-- The call changes no entries and no maps: it reads, takes a snapshot, moves blocks out of memory,
or removes a key of which there is no entry. -/
def Idle (w : Watch K V) : Call K V → Prop
  | .request (.make ..) | .request (.put ..) | .request (.clear _) | .request (.drop _) | .make ..
  | .boot .. =>
    False
  | .request (.remove m key) => w.engine.meets m key = false
  | _ => True

instance decidableIdle (w : Watch K V) : (c : Call K V) → Decidable (w.Idle c)
  | .request (.remove m key) => inferInstanceAs (Decidable (w.engine.meets m key = false))
  | .request (.make ..) | .request (.put ..) | .request (.clear _) | .request (.drop _) | .make ..
  | .boot .. => .isFalse id
  | .request (.get ..) | .request (.search ..) | .request (.contains ..) | .request (.range ..)
  | .request (.checkpoint _) | .request (.openScan ..) | .request (.next _)
  | .request (.closeScan _)
  | .request (.evict _) | .request (.report ..) | .request (.plan _) | .plan .. => .isTrue trivial

/-- The watch is orderly, and the deeds so far are in accord with what is in memory. -/
structure Accords (past : List (Deed K V)) (w : Watch K V) : Prop where
  orderly : w.Orderly
  moored : w.engine.Moored
  ledger : w.engine.Ledger past

variable {w : Watch K V} {c : Call K V} {cs : List (Call K V)} {ds past : List (Deed K V)} {m : Nat}

omit [Sized K] [Sized V] in
/-- A punctual call keeps dirty blocks moored or adrift. -/
theorem Orderly.secures [Sized K] [Sized V] (h : w.Orderly) (hmoored : w.engine.Moored)
    (hc : w.Punctual c) : w.engine.Secures (w.engine.call c) := by
  refine (Engine.effect_call h.tidy h.stores c).secures h.tidy hmoored fun n hn => ?_
  subst hn
  exact (h.next_cases hc).imp_right fun ⟨m, s, _, hs, hroams⟩ =>
    ⟨m, (Engine.steps_next h.tidy hs hroams).1⟩

variable [Std.IsLinearOrder K]

theorem Accords.step (h : w.Accords past) (hc : w.Punctual c) (hdoes : w.engine.Does c ds) :
    (w.step c).Accords (ds ++ past) := by
  have hsecures := h.orderly.secures h.moored hc
  exact ⟨h.orderly.step hc, hsecures.moored, hdoes.ledger hsecures.drift h.ledger⟩

/-- The deeds of a run of punctual calls are in accord with what is in memory afterwards. -/
theorem Accords.run (h : w.Accords past) (hcs : w.All Punctual cs) (hdoes : w.Does cs ds) :
    (w.run cs).Accords (ds ++ past) := by
  induction hdoes generalizing past with
  | nil w => exact h
  | cons hc _ ih =>
    cases hcs with
    | cons hpunctual hrest =>
      rw [List.append_assoc]
      exact ih (h.step hpunctual hc) hrest

/-! ### After a snapshot -/

/-- Nothing was done with the blocks of a map, those that it gave up included, but moving them in
and out of memory. -/
structure Rests (m : Nat) (e e' : Engine K V) : Prop extends Engine.Paging e e' where
  spared : ∀ (ref : BlockRef) (b : Block K V), e.blocks[ref]? = some b → b.home.owner = m + 1 →
    ∃ b', e'.blocks[ref]? = some b' ∧ b.Spared b'

section Rests

omit [Wire K] [Wire V] [LE K] [DecidableLE K] [Sized K] [Sized V] [Std.IsLinearOrder K]

variable {e e' e'' : Engine K V} {ref : BlockRef} {b' : Block K V}

theorem Rests.trans (h : Rests m e e') (h' : Rests m e' e'') : Rests m e e'' := by
  refine ⟨h.toPaging.trans h'.toPaging, fun ref b hb howner => ?_⟩
  obtain ⟨b', hb', hspared⟩ := h.spared ref b hb howner
  obtain ⟨b'', hb'', hspared'⟩ := h'.spared ref b' hb' (hspared.home ▸ howner)
  exact ⟨b'', hb'', hspared.trans hspared'⟩

end Rests

omit [Std.IsLinearOrder K] in
/-- An idle call is a request that does nothing to entries, or it plans which calls of a store are
refused. -/
theorem Idle.cases (hc : w.Idle c) : (∃ q : Request K V, c = .request q ∧ q.staysIn = true ∧
    w.engine.editOf q = .keep) ∨ ∃ store faults, c = .plan store faults := by
  cases c with
  | make => exact hc.elim
  | boot => exact hc.elim
  | plan store faults => exact Or.inr ⟨store, faults, rfl⟩
  | request q =>
    left
    refine ⟨q, rfl, ?_⟩
    cases q <;> first | exact hc.elim | skip
    case remove m key =>
      have habsent : w.engine.meets m key = false := hc
      exact ⟨rfl, by simp [Engine.editOf, habsent]⟩
    all_goals exact ⟨rfl, rfl⟩

omit [Std.IsLinearOrder K] in
theorem Idle.paging (hc : w.Idle c) : Engine.Paging w.engine (w.engine.call c) := by
  rcases hc.cases with ⟨q, rfl, hq, hkeep⟩ | ⟨store, faults, rfl⟩
  · obtain ⟨ds, hmoves⟩ : Engine.Led (w.engine.editOf q) w.engine (w.engine.serve q).2 :=
      Engine.led_serve hq w.engine (Or.inr rfl)
    rw [hkeep] at hmoves
    exact hmoves.paging
  · exact (Engine.aside_plan store faults w.engine).paging

end Watch

end PagedMap
