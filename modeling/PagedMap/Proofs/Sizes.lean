import Mathlib
import PagedMap.Proofs.Order
import PagedMap.Proofs.Refinement

/-!
# Sizes and snapshots

As long as no map is restored, the recorded size of a block is exactly the weight of its entries
(`Layout.SizesExact`): every request keeps this, whatever becomes of the calls of the page store
(`Engine.sizesExact_serveAll`).

A snapshot leaves out the blocks of size 0.  It therefore lists a block if and only if one of its
entries weighs something.  With an overhead for every entry these are the blocks with entries;
without one, a block whose entries have empty keys and values is left out with its entries
(`Engine.listed_serveAll`, `Engine.weightless_entry_unlisted`).
-/

namespace PagedMap

variable {K V : Type}

/-- The recorded sizes of the blocks are the weights of their entries. -/
def Layout.SizesExact [Sized K] [Sized V] (t : Layout K V) : Prop := ∀ s ∈ t, s.block.excess = 0

namespace Layout

variable [Sized K] [Sized V] {t : Layout K V} {s : Stretch K V}

theorem SizesExact.size_eq (h : t.SizesExact) (hs : s ∈ t) :
    s.block.size = (s.block.held.map s.block.home.weight).sum := Block.size_eq_of_excess (h s hs)

/-- A block has a size if and only if one of its entries weighs something. -/
theorem SizesExact.size_ne_zero_iff (h : t.SizesExact) (hs : s ∈ t) :
    s.block.size ≠ 0 ↔ ∃ entry ∈ s.block.held, 0 < s.block.home.weight entry := by
  rw [h.size_eq hs, ne_eq, List.sum_eq_zero_iff, List.forall_mem_map]
  constructor
  · intro hne
    by_contra hnone
    refine hne fun entry hentry => ?_
    by_contra hweight
    exact hnone ⟨entry, hentry, Nat.pos_of_ne_zero hweight⟩
  · rintro ⟨entry, hentry, hweight⟩ hzero
    exact hweight.ne' (hzero entry hentry)

end Layout

namespace Engine

variable [Wire K] [Wire V] [LE K] [DecidableLE K] [Std.IsLinearOrder K] [Sized K] [Sized V]
  [Lossless K] [Lossless V]

variable {e e' : Engine K V} {m : Nat} {state : MapState K} {limit : Option Nat}
  {snapshot : Snapshot K} {qs : List (Request K V)} {as : List (Answer K V)}
  {policies : List (Policy BlockRef)} {store : Store K V} {volume : Volume}

/-- Whatever requests are served, the recorded sizes remain the weights of the entries. -/
theorem sizesExact_serveAll (hs : e.AllHold limit) (h : ∀ m, (e.layout m).SizesExact)
    (hrun : e.serveAll qs = (as, e')) (hw : e'.Within limit) :
    e'.AllHold limit ∧ ∀ m, (e'.layout m).SizesExact :=
  serveAll_induct (P := fun e => ∀ m, (e.layout m).SizesExact)
    (fun _ _ _ _ _ _ hserved hexact m =>
      (hserved.shifts m).excess (p := fun c => c = 0) rfl (fun _ hc => hc.ge) (hexact m))
      hs h hrun hw

omit [LE K] [DecidableLE K] [Std.IsLinearOrder K] [Lossless K] [Lossless V] [Sized K] [Sized V] in
theorem Describes.ids_eq {t : Layout K V} (h : e.Describes snapshot t) :
    snapshot.blocks.map (·.id) = (t.filter fun b => b.block.size ≠ 0).map (·.block.id) :=
  h.map_eq (·.id) fun _ _ => rfl

/-- Let a map be in any state that requests lead to, and let a snapshot of it be taken.  The
snapshot lists the blocks with an entry that weighs something.  These are the blocks with entries if
and only if no block has only entries that weigh nothing, and that is so if there is an overhead for
every entry. -/
theorem listed_serveAll (hready : store.Ready limit volume)
    (hrun : (start policies store volume).serveAll qs = (as, e)) (hm : e.maps[m]? = some state)
    (hcheckpoint : e.serve (.checkpoint m) = (.snapshot snapshot, e')) (hw : e'.Within limit) :
    let listed := snapshot.blocks.map (·.id)
    let filled := ((e.layout m).filter fun b => !b.block.held.isEmpty).map (·.block.id)
    listed = ((e.layout m).filter fun b => b.block.held.any (0 < state.home.weight ·)).map
        (·.block.id) ∧
      (listed = filled ↔ ∀ b ∈ e.layout m, b.block.held ≠ [] →
        ∃ entry ∈ b.block.held, 0 < state.home.weight entry) ∧
      (1 ≤ state.home.entryOverhead → listed = filled) := by
  intro listed filled
  have hstart (m : Nat) : ((start policies store volume).layout m).SizesExact := by
    intro s hs
    simp [start, layout] at hs
  obtain ⟨hs, hexact⟩ :=
    sizesExact_serveAll (allHold_start hready) hstart hrun (hw.of_suffix (suffix_serve hcheckpoint))
  have hserved := serve_spec hs hw hcheckpoint
  have hlisted : listed = ((e.layout m).filter fun b =>
      b.block.held.any (0 < state.home.weight ·)).map (·.block.id) := by
    refine (hserved.snapshots m snapshot rfl rfl).ids_eq.trans (congrArg _ ?_)
    refine List.filter_congr fun b hb => ?_
    have hiff := (hexact m).size_ne_zero_iff hb
    rw [(hs.holds m state hm).homes b hb] at hiff
    rw [Bool.eq_iff_iff, decide_eq_true_eq, hiff, List.any_eq_true]
    simp only [decide_eq_true_eq]
  have hweighs (b : Stretch K V) : b.block.held.any (0 < state.home.weight ·) = true ↔
      ∃ entry ∈ b.block.held, 0 < state.home.weight entry := by simp
  have hpart : (e.layout m).filter (fun b => b.block.held.any (0 < state.home.weight ·)) =
      ((e.layout m).filter fun b => !b.block.held.isEmpty).filter
        fun b => b.block.held.any (0 < state.home.weight ·) := by
    rw [List.filter_filter]
    refine List.filter_congr fun b _ => ?_
    cases b.block.held <;> simp
  have hiff : listed = filled ↔ ∀ b ∈ e.layout m, b.block.held ≠ [] →
      ∃ entry ∈ b.block.held, 0 < state.home.weight entry := by
    rw [hlisted]
    constructor
    · -- what is listed is part of what is filled, so it is all of it if it is as long
      intro heq b hb hne
      have hlength := congrArg List.length heq
      rw [List.length_map, List.length_map, hpart, List.length_filter_eq_length_iff] at hlength
      exact (hweighs b).1 (hlength b (List.mem_filter.2 ⟨hb, by simpa using hne⟩))
    · intro hall
      refine congrArg _ (List.filter_congr fun b hb => ?_)
      rw [Bool.eq_iff_iff, hweighs]
      constructor
      · rintro ⟨entry, hentry, -⟩
        simpa using List.ne_nil_of_mem hentry
      · intro hne
        exact hall b hb (by simpa using hne)
  refine ⟨hlisted, hiff, fun hoverhead => hiff.2 fun b _ hne => ?_⟩
  obtain ⟨entry, hentry⟩ := List.exists_mem_of_ne_nil _ hne
  exact ⟨entry, hentry, Nat.lt_of_lt_of_le hoverhead (Nat.le_add_left _ _)⟩

/-- A map with an overhead has two blocks, of which one loses its only entry before a snapshot. -/
theorem listed_serveAll_removed :
    let sizing : Sizing := { maxBlockSize := 12, entryOverhead := 4, blockOverhead := 0 }
    let qs : List (Request (Shape.uint .w8).Datum (Shape.uint .w8).Datum) :=
      [.make sizing 0, .put 0 1#8 1#8, .put 0 3#8 3#8, .put 0 2#8 2#8, .remove 0 3#8]
    let e := ((start [.clock (.empty 2)] .inMemory {}).serveAll qs).2
    1 ≤ sizing.entryOverhead ∧ e.serve (.checkpoint 0) =
        (.snapshot ⟨[⟨1#8, 2#8, 0, 12, 1⟩]⟩, (e.serve (.checkpoint 0)).2) ∧
      [0] = ((e.layout 0).filter fun b => !b.block.held.isEmpty).map (·.block.id) := by
  intro sizing qs e
  have hoverhead : ∃ state ∈ e.maps[0]?, 1 ≤ state.home.entryOverhead := by decide +kernel
  have hanswer : (e.serve (.checkpoint 0)).1 = .snapshot ⟨[⟨1#8, 2#8, 0, 12, 1⟩]⟩ := by
    decide +kernel
  have hready : (Store.inMemory (K := (Shape.uint .w8).Datum) (V := (Shape.uint .w8).Datum)).Ready
      none {} := trivial
  have hrun : (start [.clock (.empty 2)] .inMemory {}).serveAll qs = (_, e) := Prod.mk.eta.symm
  clear_value e
  obtain ⟨state, hm, hover⟩ := hoverhead
  have hcheckpoint : e.serve (.checkpoint 0) =
      (.snapshot ⟨[⟨1#8, 2#8, 0, 12, 1⟩]⟩, (e.serve (.checkpoint 0)).2) := by rw [← hanswer]
  have hw : (e.serve (.checkpoint 0)).2.Within none := Engine.within_none _
  exact ⟨by decide, hcheckpoint, (listed_serveAll hready hrun hm hcheckpoint hw).2.2 hover⟩

/-- Without an overhead, a block whose only entry has an empty key and an empty value is not
listed. -/
theorem weightless_entry_unlisted :
    let sizing : Sizing := { maxBlockSize := 10, entryOverhead := 0, blockOverhead := 0 }
    let e : Engine Shape.string.Datum Shape.string.Datum :=
      ((start [.clock (.empty 2)] .inMemory {}).serveAll [.make sizing 0, .put 0 "" ""]).2
    (e.layout 0).map (·.block.held) =
        [([("", "")] : Entries Shape.string.Datum Shape.string.Datum)] ∧
      (e.serve (.checkpoint 0)).1 = .snapshot ⟨[]⟩ := by
  decide +kernel

end Engine

end PagedMap
