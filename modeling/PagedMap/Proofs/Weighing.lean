import Mathlib
import PagedMap.Proofs.Durability
import PagedMap.Proofs.Partition
import PagedMap.Proofs.Weights

/-!
# Recorded sizes

The size of a block is not counted anew when its entries change.  What a stored entry weighs is
added to it, what a replaced or removed one weighs is taken away, and a split gives the lower part
the weight of its entries and the upper part what is left.  Where more were to be taken away than
there is, the size would become 0 and be wrong from then on.

That does not happen (`Block.Weighed`).  Every pass leaves the size of each listed block the weight
of its entries, whether these are in memory or on a page (`Engine.Weighs`): paging moves entries and
keeps the size, and what is done to entries is done in memory, to sorted entries.  So the sizes are
right in the middle of a request, too, and those that snapshots take with them are the weights of
the entries on the pages (`Session.weighed_run`).
-/

namespace PagedMap

variable {K V : Type}

namespace Block

variable [LE K] [DecidableLE K] [Sized K] [Sized V]

/-- The recorded size of a block with these entries is what they weigh, and nothing that is taken
away from it is cut off at 0, be it the weight of a replaced value, of a removed entry or of the
lower part of a split. -/
structure Weighed (b : Block K V) (es : Entries K V) : Prop where
  size : b.size = (es.map b.home.weight).sum
  replace : ∀ key value old, es.value? key = some old →
    (b.insert es key value).size + b.home.weight (key, old) = b.size + b.home.weight (key, value)
  erase : ∀ key old, es.value? key = some old →
    (b.erase es key).size + b.home.weight (key, old) = b.size
  split : ∀ id ref lower upper, (b.loaded es).split? id ref = some (lower, upper) →
    lower.size + upper.size = b.size

variable {b : Block K V} {es : Entries K V} {key : K}

/-- Sorted entries that weigh what the size says are all that is needed. -/
theorem weighed_of_size [Std.IsLinearOrder K] (hsorted : es.Sorted)
    (hsize : b.size = (es.map b.home.weight).sum) : b.Weighed es := by
  have hpart {key : K} {old : V} (hold : es.value? key = some old) :
      b.sizeWithout key (some old) + b.home.weight (key, old) = b.size := by
    have hsum := Entries.sum_erase b.home.weight hsorted hold
    rw [← hsize] at hsum
    exact Nat.sub_add_cancel (hsum ▸ Nat.le_add_left _ _)
  refine ⟨hsize, fun key value old hold => ?_, fun key old hold => ?_,
    fun id ref lower upper h => ?_⟩
  · have hnew : (b.insert es key value).size =
        b.sizeWithout key (some old) + b.home.weight (key, value) := by rw [Block.insert, hold]
    have hrest := hpart hold
    omega
  · have hrest : (b.erase es key).size = b.sizeWithout key (some old) := by rw [Block.erase, hold]
    rw [hrest, hpart hold]
  · obtain ⟨front, back, total, hcut, _, _, _, _, -, -, -, -, rfl, rfl⟩ := Block.split?_eq_some h
    have htotal : total = (front.map b.home.weight).sum := Entries.total_of_cut? hcut
    have happ : front ++ back = es := Entries.append_of_cut? hcut
    rw [← happ, List.map_append, List.sum_append, ← htotal] at hsize
    exact Nat.add_sub_cancel' (hsize ▸ Nat.le_add_right _ _)

end Block

namespace Engine

variable [Wire K] [Wire V] [LE K] [DecidableLE K] [Sized K] [Sized V]

/-- The blocks that a map lists have its home, and their sizes are the weights of their entries. -/
def Weighs (e : Engine K V) : Prop :=
  ∀ (m : Nat) (state : MapState K), e.maps[m]? = some state → ∀ ref ∈ state.directory.refs,
    ∃ b, e.blocks[ref]? = some b ∧ b.home = state.home ∧ (b.settled (e.content b)).excess = 0

variable {e e' : Engine K V} {m : Nat} {state : MapState K} {ref : BlockRef} {b b' : Block K V}
  {limit : Option Nat} {k : Scope} {es : Entries K V}

theorem excess_settled (hes : b.entries = some es) :
    (b.settled (e.content b)).excess = b.excess := by
  rw [content_of_some hes, Block.excess, Block.excess, Block.held_of_some hes]
  rfl

theorem AllHold.weighs (hs : e.AllHold limit) (h : ∀ m, ∀ x ∈ e.layout m, x.block.excess = 0) :
    e.Weighs := by
  intro m state hm ref href
  have hh := hs.holds m state hm
  obtain ⟨x, hx, rfl, b, hb, -, hsame⟩ := hh.exists_of_mem href
  have hhome := hh.homes x hx
  have hexcess := h m x hx
  rw [hsame] at hhome hexcess
  exact ⟨b, hb, hhome, hexcess⟩

/-! ### Passes -/

/-- A listed block may be replaced by one of the same home whose size is right if its own was. -/
theorem Weighs.setBlock (h : e.Weighs) (hb : e.blocks[ref]? = some b) (hhome : b'.home = b.home)
    (hexcess : ∀ m, e.Lists m ref b → (b.settled (e.content b)).excess = 0 →
      (b'.settled (e.content b')).excess = 0) : (e.setBlock ref b').Weighs := by
  intro m state hm r hr
  obtain ⟨c, hc, hchome, hczero⟩ := h m state hm r hr
  by_cases hne : r = ref
  · subst hne
    obtain rfl := Option.some.inj (hb.symm.trans hc)
    exact ⟨b', List.getElem?_set_self (List.getElem?_eq_some_iff.1 hb).1, hhome.trans hchome,
      hexcess m ⟨state, hm, hr, hb⟩ hczero⟩
  · exact ⟨c, (List.getElem?_set_ne (Ne.symm hne)).trans hc, hchome, hczero⟩

theorem Weighs.enlist (h : e.Weighs) (hm : e.maps[m]? = some state) (hhome : b.home = state.home)
    (hzero : (b.settled (e.content b)).excess = 0) (lastId : Nat) :
    (e.enlist m state b lastId).Weighs := by
  intro i state' hi r hr
  have hold {st : MapState K} (hst : e.maps[i]? = some st) (hr : r ∈ st.directory.refs) :
      ∃ c, (e.enlist m state b lastId).blocks[r]? = some c ∧ c.home = st.home ∧
        (c.settled (e.content c)).excess = 0 := by
    obtain ⟨c, hc, hrest⟩ := h i st hst r hr
    exact ⟨c, blocks_enlist_of_some hc, hrest⟩
  by_cases hne : i = m
  · subst hne
    obtain rfl := Option.some.inj ((maps_enlist hm b lastId).symm.trans hi)
    obtain ⟨x, hx, rfl⟩ := List.mem_map.1 hr
    rcases Directory.mem_insert hx with hx | ⟨hnew, -⟩
    · obtain ⟨c, hc, hchome, hczero⟩ := hold hm (List.mem_map_of_mem hx)
      exact ⟨c, hc, hchome, hczero⟩
    · exact ⟨b, hnew ▸ List.getElem?_concat_length, hhome, hzero⟩
  · exact hold ((maps_enlist_of_ne hne).symm.trans hi) hr

section Alters

variable [Std.IsLinearOrder K]

/-- What is done to entries is accounted for. -/
theorem Alters.weighs (h : Alters e e') (hl : e.Lasting limit) (hweighs : e.Weighs) :
    e'.Weighs := by
  cases h with
  | @erase ref b es hb hes key =>
    obtain ⟨es', hes'⟩ : ∃ es', (b.erase es key).entries = some es' := by
      rcases b.erase_cases es key with ⟨-, herased⟩ | hsame
      · exact ⟨_, herased⟩
      · exact ⟨es, hsame.symm ▸ hes⟩
    have hhome : (b.erase es key).home = b.home := by
      unfold Block.erase
      split <;> rfl
    refine hweighs.setBlock hb hhome fun m hlists hzero => ?_
    have hsorted := (hl.coherent m ref b hlists).sorted_of_some hes
    rw [excess_settled hes] at hzero
    obtain rfl := Block.held_of_some hes
    rw [excess_settled hes', Block.excess_erase_of_sorted hsorted hzero.ge, hzero]
  | @insert ref b es hb hes key value =>
    refine hweighs.setBlock hb rfl fun m hlists hzero => ?_
    have hsorted := (hl.coherent m ref b hlists).sorted_of_some hes
    rw [excess_settled hes] at hzero
    obtain rfl := Block.held_of_some hes
    rw [excess_settled rfl, Block.excess_insert_of_sorted hsorted hzero.ge, hzero]
  | @split m ref b hlists hdirty =>
    have hb := hlists.blocks_eq
    obtain ⟨hlt, -⟩ := List.getElem?_eq_some_iff.1 hb
    obtain ⟨state, hm, href, -⟩ := id hlists
    obtain ⟨c, hc, hhome, hzero⟩ := hweighs m state hm ref href
    obtain rfl := Option.some.inj (hb.symm.trans hc)
    cases hsplit : b.split? (state.lastId + 1) e.blocks.length with
    | none => simpa [Engine.split, hm, hsplit] using hweighs
    | some parts =>
      obtain ⟨lower, upper⟩ := parts
      obtain ⟨es, hes⟩ := Option.isSome_iff_exists.1 ((hl.coherent m ref b hlists).loaded hdirty)
      rw [excess_settled hes] at hzero
      obtain ⟨hlower, hupper⟩ := Block.excess_split hzero.ge hsplit
      obtain ⟨hfront, -, hlowerHome, -, hback, -, hupperHome⟩ := Block.split?_parts hsplit
      rw [split_eq hm hlt hsplit]
      -- the lower part takes the place of the block once the upper one is listed
      have hlisted := hweighs.enlist hm (hupperHome.trans hhome)
        ((excess_settled hback).trans (hupper.trans hzero)) (state.lastId + 1)
      exact hlisted.setBlock ((List.getElem?_append_left hlt).trans hb) hlowerHome
        fun _ _ _ => (excess_settled hfront).trans hlower
  | plant hm key value =>
    exact hweighs.enlist hm rfl ((excess_settled rfl).trans (Block.excess_ofEntry _)) _

variable [Lossless K] [Lossless V]

omit [Std.IsLinearOrder K] in
theorem Keeps.weighs (hk : Keeps limit e e') (hw : e'.Within limit) (hl : e.Lasting limit)
    (h : e.Weighs) : e'.Weighs := by
  intro m state hm ref href
  rw [hk.maps] at hm
  obtain ⟨b, hb, hhome, hzero⟩ := h m state hm ref href
  obtain ⟨b', hb', -, hsame⟩ :=
    hk.blocks hw hl.roomy ref b hb (hl.coherent m ref b ⟨state, hm, href, hb⟩)
  exact ⟨b', hb', (congrArg Block.home hsame).trans hhome, hsame ▸ hzero⟩

theorem Pass.weighs (h : Pass k e e') (hw : e'.Within limit) (hl : e.Lasting limit)
    (hweighs : e.Weighs) : e'.Weighs := by
  rcases h.paging_or_alters with hpaging | ⟨-, halters⟩
  · exact (hpaging.keeps limit).weighs hw hl hweighs
  · exact halters.weighs hl hweighs

theorem Passes.weighs (h : Passes k e e') (hw : e'.Within limit) (hl : e.Lasting limit)
    (hweighs : e.Weighs) : e'.Weighs := by
  induction h with
  | refl => exact hweighs
  | tail hpasses hpass ih =>
    have hw' := hw.of_suffix hpass.suffix
    exact hpass.weighs hw (Passes.lasting hpasses hw' hl) (ih hw')

end Alters

end Engine

namespace Session

variable [Wire K] [Wire V] [LE K] [DecidableLE K] [Std.IsLinearOrder K] [Sized K] [Sized V]
  [Lossless K] [Lossless V]

variable {limit : Option Nat} {k : Scope} {policies : List (Policy BlockRef)} {store : Store K V}
  {volume : Volume} {cs : List (Command K V)} {s : Session K V} {x : Saved K} {e : Engine K V}

omit [Std.IsLinearOrder K] [Lossless K] [Lossless V] in
/-- The sizes that snapshots take with them are the weights of the entries on the pages. -/
theorem Excess.sum_of_mem_saved (h : s.Excess (· = 0)) (hx : x ∈ s.saved) :
    ∀ info ∈ x.snapshot.blocks, ∃ es, s.engine.readPage 0 info.page = .ok es ∧ info.size =
      (es.map fun entry => Sized.size entry.1 + Sized.size entry.2 + x.entryOverhead).sum := by
  intro info hinfo
  obtain ⟨t, hdocuments, hexcess⟩ := h.saved x hx
  obtain ⟨y, hy, hblock, hread⟩ := hdocuments.describes.exists_of_mem hinfo
  refine ⟨_, hread, ?_⟩
  rw [hblock, ← hdocuments.homes y hy]
  exact Block.size_eq_of_excess (hexcess y hy)

/-- Let a session restore maps from snapshots of maps with their overhead only, and let any calls of
the page store fail in it.  After any commands, and anywhere on the way of a request
(`Engine.passes_serve`), the size of every block that a map lists is what its entries weigh in the
map, whether these are in memory or on its page, and no subtraction from it is cut off.  The size of
every block that a snapshot describes is what the entries on its page weigh. -/
theorem weighed_run (hready : store.Ready limit volume)
    (hcs : (start policies store volume).All Matches cs)
    (hrun : (start policies store volume).run cs = s) (hway : Engine.Passes k s.engine e)
    (hw : e.Within limit) :
    (∀ (m : Nat) (state : MapState K), e.maps[m]? = some state → ∀ ref ∈ state.directory.refs,
      ∃ b es, e.blocks[ref]? = some b ∧ b.home = state.home ∧ e.Carries b es ∧ b.Weighed es) ∧
    ∀ x ∈ s.saved, ∀ info ∈ x.snapshot.blocks, ∃ es, s.engine.readPage 0 info.page = .ok es ∧
      info.size = (es.map fun entry =>
        Sized.size entry.1 + Sized.size entry.2 + x.entryOverhead).sum := by
  have hwithin : s.engine.Within limit := hw.of_suffix hway.suffix
  obtain ⟨hs, hexact⟩ : s.Documented limit ∧ s.Excess (· = 0) := by
    have hdocumented : (start policies store volume).Documented limit := documented_start hready
    subst hrun
    exact ⟨(goes_run hdocumented hwithin).documented,
      exact_run (exact_start policies store volume) hdocumented hcs hwithin⟩
  have hlasting := hs.engine.lasting
  have hweighs := hway.weighs hw hlasting (hs.engine.weighs hexact.layouts)
  refine ⟨fun m state hm ref href => ?_, fun x hx => hexact.sum_of_mem_saved hx⟩
  obtain ⟨b, hb, hhome, hzero⟩ := hweighs m state hm ref href
  have hcoh := (hway.lasting hw hlasting).coherent m ref b ⟨state, hm, href, hb⟩
  exact ⟨b, _, hb, hhome, hcoh.carries,
    Block.weighed_of_size hcoh.sorted (Block.size_eq_of_excess hzero)⟩

/-- A block of three entries is split, loses an entry and takes a shorter value, and its map is
restored from a snapshot.  When the other block is changed, the page store refuses to take the first
one, which was changed, too. -/
theorem weighed_run_refused :
    let sizing : Sizing := { maxBlockSize := 20, entryOverhead := 2, blockOverhead := 0 }
    let cs : List (Command (Shape.uint .w8).Datum Shape.string.Datum) :=
      [.request (.make sizing 0), .request (.put 0 5#8 "aaa"), .request (.put 0 3#8 "b"),
        .request (.put 0 9#8 "cccc"), .request (.put 0 7#8 "dd"), .request (.put 0 5#8 "a"),
        .request (.remove 0 3#8), .request (.checkpoint 0), .request (.clear 0), .boot 0 0,
        .request (.put 0 7#8 "ddd"), .request (.plan { creates := .first 1 })]
    let put : Request (Shape.uint .w8).Datum Shape.string.Datum := .put 0 9#8 "c"
    let es : Entries (Shape.uint .w8).Datum Shape.string.Datum := [(5#8, "a"), (7#8, "ddd")]
    let s := (start [.clock (.empty 1)] .inMemory {}).run cs
    let e := (s.engine.serve put).2
    (start [.clock (.empty 1)] .inMemory {}).All Matches cs ∧
      (∃ b, e.blocks[2]? = some b ∧ b.size = 10 ∧ b.Weighed es) ∧
      ∃ x ∈ s.saved, ∃ info ∈ x.snapshot.blocks, info.size = 9 ∧ ∃ written,
        s.engine.readPage 0 info.page = .ok written ∧
        9 = (written.map fun entry =>
          Sized.size entry.1 + Sized.size entry.2 + x.entryOverhead).sum := by
  intro sizing cs put es s e
  have hcs : (start [.clock (.empty 1)] .inMemory {}).All Matches cs := by decide +kernel
  have hlisted : ∃ state ∈ e.maps[0]?, 2 ∈ state.directory.refs := by decide +kernel
  have hdirty : ∃ b ∈ e.blocks[2]?, b.size = 10 ∧ b.entries = some es := by decide +kernel
  have hsaved : ∃ x ∈ s.saved, ∃ info ∈ x.snapshot.blocks, info.size = 9 := by decide +kernel
  have hready :
      (Store.inMemory (K := (Shape.uint .w8).Datum) (V := Shape.string.Datum)).Ready none {} :=
    trivial
  have hrun : (start [.clock (.empty 1)] .inMemory {}).run cs = s := rfl
  have hput : (s.engine.serve put).2 = e := rfl
  clear_value s e
  have hway : Engine.Passes .put s.engine e := hput ▸ Engine.passes_serve (q := put) rfl s.engine
  have hw : e.Within none := Engine.within_none _
  obtain ⟨hblocks, hinfos⟩ := weighed_run hready hcs hrun hway hw
  obtain ⟨state, hm, href⟩ := hlisted
  obtain ⟨b, hb, hsize, hentries⟩ := hdirty
  obtain ⟨x, hx, info, hinfo, hnine⟩ := hsaved
  obtain ⟨b', es', hb', -, hcarries, hweighed⟩ := hblocks 0 state hm 2 href
  obtain rfl : b = b' := Option.some.inj (hb.symm.trans hb')
  have hes : es' = es := by
    rcases hcarries with hsome | ⟨hnone, -⟩
    · exact Option.some.inj (hsome.symm.trans hentries)
    · exact absurd (hentries.symm.trans hnone) (by simp)
  have hsum := hinfos x hx info hinfo
  rw [hnine] at hsum
  exact ⟨hcs, ⟨b, hb, hsize, hes ▸ hweighed⟩, x, hx, info, hinfo, hnine, hsum⟩

end Session

end PagedMap
