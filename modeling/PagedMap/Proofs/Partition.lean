import Mathlib
import PagedMap.Proofs.Order
import PagedMap.Proofs.Session

/-!
# The blocks of a map partition its keys

In every state that a session comes to, the blocks of a map stand in its directory in the order of
their bounds, which do not overlap, and every entry is within the bounds of its block
(`Engine.Partitioned`).

Puts are routed by the starts of the blocks, and reads and removals by their bounds, which are wider
than the keys of a block after some were removed.  Both ways lead to one block: a block that covers
a key is the one the directory names for it, and a key that is present is covered by its block
(`Session.partitioned_run`).
-/

namespace PagedMap

variable {K V : Type}

/-! ### The block of a key -/

namespace Layout

variable [LE K] [DecidableLE K] {pre post : Layout K V} {s : Stretch K V} {lastId : Nat} {key : K}

/-- The directory names the last block that does not start after a key. -/
theorem floor?_directory (hs : s.block.start.reaches key = true)
    (hpost : ∀ n ∈ post, n.block.start.reaches key = false) :
    (directory (pre ++ s :: post)).floor? key = some s.ref := by
  have hnone : (directory post).filter (fun b => b.1.reaches key) = [] := by
    rw [directory, List.filter_eq_nil_iff, List.forall_mem_map]
    intro n hn
    simp [hpost n hn]
  rw [Directory.floor?, directory_append, directory_cons, List.filter_append,
    List.filter_cons_of_pos (by exact hs), hnone]
  simp

/-- A block that covers a key is the one that the directory names. -/
theorem Tiled.floor?_of_covers [Std.IsLinearOrder K] (h : Tiled lastId (pre ++ s :: post))
    (hs : s.block.covers key = true) : (directory (pre ++ s :: post)).floor? key = some s.ref :=
  floor?_directory (h.reaches_of_covers hs) (h.not_reaches_of_covers hs)

end Layout

namespace Engine

variable [Wire K] [Wire V] [LE K] [DecidableLE K]

/-- The block has these entries, in memory or on its page. -/
def Carries (e : Engine K V) (b : Block K V) (es : Entries K V) : Prop :=
  b.entries = some es ∨ b.entries = none ∧ e.readPage b.home.store b.page = .ok es

/-- The blocks of a directory stand in the order of their bounds, and their entries are within the
bounds. -/
structure Partitioned (e : Engine K V) (d : Directory K) (blocks : List (Block K V)) : Prop where
  listed : List.Forall₂ (fun x b => e.blocks[x.2]? = some b ∧ b.start = x.1) d blocks
  bounds : ∀ b ∈ blocks, b.minKey ≤ b.maxKey
  apart : blocks.Pairwise fun b n => ¬ n.minKey ≤ b.maxKey
  starts : ∀ b ∈ blocks, ∀ k ∈ b.start.key?, k ≤ b.minKey
  head : blocks.Pairwise fun _ n => n.start ≠ .head
  entries : ∀ b ∈ blocks, ∃ es, e.Carries b es ∧ es.Sorted ∧
    ∀ entry ∈ es, b.minKey ≤ entry.1 ∧ entry.1 ≤ b.maxKey

variable {e : Engine K V} {m : Nat} {state : MapState K} {t : Layout K V} {s : Stretch K V}
  {b : Block K V} {es : Entries K V} {key : K} {value : V}

theorem Coherent.carries (h : e.Coherent b) : e.Carries b (e.content b) := by
  cases hes : b.entries with
  | some es =>
    left
    rw [hes, content_of_some hes]
  | none =>
    right
    exact ⟨hes, h.read_of_none hes⟩

theorem Coherent.eq_content [Std.IsLinearOrder K] (h : e.Coherent b) (hes : e.Carries b es) :
    es = e.content b := by
  rcases hes with hes | ⟨hnone, hread⟩
  · exact (content_of_some hes).symm
  · have hread' := h.read_of_none hnone
    rw [hread] at hread'
    exact Except.ok.inj hread'

/-- The block at the reference of a stretch. -/
def blockAt (e : Engine K V) (s : Stretch K V) : Block K V := (e.blocks[s.ref]?).getD s.block

theorem Shows.blockAt (h : e.Shows s) : e.blocks[s.ref]? = some (e.blockAt s) ∧
    e.Coherent (e.blockAt s) ∧ s.block = (e.blockAt s).settled (e.content (e.blockAt s)) := by
  obtain ⟨b, hb, hcoh, hs⟩ := h
  have hsame : e.blockAt s = b := by rw [Engine.blockAt, hb, Option.getD_some]
  rw [hsame]
  exact ⟨hb, hcoh, hs⟩

variable [Std.IsLinearOrder K]

/-- The blocks of a map partition its keys. -/
theorem Holds.partitioned (h : e.Holds m state t) :
    e.Partitioned state.directory (t.map e.blockAt) := by
  have hbounds (s : Stretch K V) (hs : s ∈ t) : (e.blockAt s).start = s.block.start ∧
      (e.blockAt s).minKey = s.block.minKey ∧ (e.blockAt s).maxKey = s.block.maxKey ∧
      s.block.held = e.content (e.blockAt s) := by
    rw [(h.shows s hs).blockAt.2.2]
    exact ⟨rfl, rfl, rfl, rfl⟩
  refine ⟨?_, ?_, ?_, ?_, ?_, ?_⟩
  · rw [h.directory, Layout.directory, List.forall₂_map_left_iff, List.forall₂_map_right_iff,
      List.forall₂_same]
    intro s hs
    exact ⟨(h.shows s hs).blockAt.1, (hbounds s hs).1⟩
  · rw [List.forall_mem_map]
    intro s hs
    obtain ⟨-, hmin, hmax, -⟩ := hbounds s hs
    rw [hmin, hmax]
    exact (h.tiled.blocks s hs).min_le_max
  · refine List.pairwise_map.2 (h.tiled.apart.imp_of_mem fun {s n} hs hn hp => ?_)
    rw [(hbounds n hn).2.1, (hbounds s hs).2.2.1]
    exact hp.lt (h.tiled.blocks n hn)
  · rw [List.forall_mem_map]
    intro s hs
    obtain ⟨hstart, hmin, -, -⟩ := hbounds s hs
    rw [hstart, hmin]
    exact Block.reaches_iff.1 (h.tiled.blocks s hs).reaches
  · refine List.pairwise_map.2 (h.tiled.apart.imp_of_mem fun {s n} _ hn hp => ?_)
    obtain ⟨-, -, k, hk, -⟩ := hp
    rw [(hbounds n hn).1]
    intro hhead
    simp [hhead, Start.key?] at hk
  · rw [List.forall_mem_map]
    intro s hs
    obtain ⟨-, hmin, hmax, hheld⟩ := hbounds s hs
    have hinBounds := h.tiled.blocks s hs
    refine ⟨s.block.held, hheld ▸ (h.shows s hs).blockAt.2.1.carries, hinBounds.sorted, ?_⟩
    rw [hmin, hmax]
    exact hinBounds.within

omit [Wire K] [Wire V] [Std.IsLinearOrder K] in
/-- A scan comes to every block that has room for a key of its range. -/
theorem mem_queue_scan {first last : Option K} {sc : Scan K V} {ref : BlockRef}
    (hm : e.maps[m]? = some state) (href : ref ∈ state.directory.refs)
    (hb : e.blocks[ref]? = some b) (hoverlaps : b.overlaps first last = true)
    (h : scan m first last e = .ok sc) : ref ∈ sc.queue := by
  unfold scan at h
  split at h
  · simp at h
  · obtain rfl := Except.ok.inj h
    simp only [hm, List.mem_filter]
    exact ⟨href, by simp [hb, hoverlaps]⟩

end Engine

namespace Session

variable [Wire K] [Wire V] [LE K] [DecidableLE K] [Std.IsLinearOrder K] [Sized K] [Sized V]
  [Lossless K] [Lossless V]

variable {limit : Option Nat} {m : Nat} {state : MapState K} {policies : List (Policy BlockRef)}
  {store : Store K V} {volume : Volume} {cs : List (Command K V)} {s : Session K V}

/-- In every state that a session comes to, the blocks of a map partition its keys.  Of its blocks
only the one that the directory names for a key can cover the key, and so only this one can have it.
The block that has a key covers it, is the one that a removal of the key goes to, and is among those
that every scan over a range with the key is to come to. -/
theorem partitioned_run (hready : store.Ready limit volume)
    (hrun : (start policies store volume).run cs = s) (hw : s.engine.Within limit)
    (hm : s.engine.maps[m]? = some state) :
    (∃ blocks, s.engine.Partitioned state.directory blocks) ∧
      ∀ ref ∈ state.directory.refs, ∀ b, s.engine.blocks[ref]? = some b → ∀ key,
        (b.covers key = true → state.directory.floor? key = some ref) ∧
        ∀ es value, s.engine.Carries b es → (key, value) ∈ es →
          b.covers key = true ∧
          (∃ rest, s.engine.removalGroups key [] state.directory.refs = [ref :: rest]) ∧
          ∀ first last sc, (∀ k ∈ first, k ≤ key) → (∀ k ∈ last, key ≤ k) →
            Engine.scan m first last s.engine = .ok sc → ref ∈ sc.queue := by
  subst hrun
  have hs := (goes_run (documented_start hready) hw).documented.engine
  have hh := hs.holds m state hm
  set e := ((start policies store volume).run cs).engine with he
  refine ⟨⟨_, hh.partitioned⟩, ?_⟩
  intro ref href b hb key
  have hmem := href
  rw [hh.directory, Layout.refs_directory, List.mem_map] at hmem
  obtain ⟨x, hx, rfl⟩ := hmem
  obtain ⟨b', hb', hcoh, hxb⟩ := hh.shows x hx
  obtain rfl := Option.some.inj (hb.symm.trans hb')
  obtain ⟨pre, post, ht⟩ := List.append_of_mem hx
  rw [ht] at hh
  have hcovers : b.covers key = x.block.covers key := by
    rw [hxb]
    rfl
  constructor
  · intro hc
    rw [hh.directory]
    exact hh.tiled.floor?_of_covers (hcovers ▸ hc)
  · intro es value hes hentry
    -- what the block carries, in memory or on its page, is what it holds in the layout
    have hheld : x.block.held = es := by
      rw [hcoh.eq_content hes, hxb]
      rfl
    have hwithin := (hh.tiled.blocks x (by simp)).within (key, value) (hheld ▸ hentry)
    have hc : x.block.covers key = true := Block.covers_iff.2 hwithin
    refine ⟨hcovers.trans hc, ?_, ?_⟩
    · obtain ⟨rest, hgroups, -⟩ := Engine.removalGroups_of_covers hh hc
      exact ⟨rest, hgroups⟩
    · intro first last sc hfirst hlast hscan
      obtain ⟨hmin, hmax⟩ := Block.covers_iff.1 (hcovers.trans hc)
      refine Engine.mem_queue_scan hm href hb (Block.overlaps_iff.2 ⟨?_, ?_⟩) hscan
      · exact fun k hk => Std.le_trans (hfirst k hk) hmax
      · exact fun k hk => Std.le_trans hmin (hlast k hk)

/-- A map of two blocks was changed, cleared and restored, and changed again: the block that covers
a key on its page is the one that the directory names for it. -/
theorem partitioned_run_restored :
    let sizing : Sizing := { maxBlockSize := 12, entryOverhead := 2, blockOverhead := 0 }
    let cs : List (Command (Shape.uint .w8).Datum (Shape.uint .w8).Datum) :=
      [.request (.make sizing 0), .request (.put 0 5#8 1#8), .request (.put 0 3#8 2#8),
        .request (.put 0 9#8 3#8), .request (.put 0 7#8 4#8), .request (.remove 0 3#8),
        .request (.checkpoint 0), .request (.clear 0), .request (.put 0 1#8 5#8), .boot 0 0,
        .request (.put 0 8#8 6#8), .request (.evict ⟨⟨1, 0⟩, 3⟩)]
    let s := (start [.clock (.empty 1)] .inMemory {}).run cs
    ∃ state, s.engine.maps[0]? = some state ∧ state.directory.refs = [3, 4] ∧
      (∃ blocks, s.engine.Partitioned state.directory blocks) ∧
      state.directory.floor? 4#8 = some 3 := by
  intro sizing cs s
  have hrefs : (s.engine.maps[0]?).map (·.directory.refs) = some [3, 4] := by decide +kernel
  have hcovers : ∃ b ∈ s.engine.blocks[3]?, b.covers 4#8 = true := by decide +kernel
  have hready : (Store.inMemory (K := (Shape.uint .w8).Datum) (V := (Shape.uint .w8).Datum)).Ready
      none {} := trivial
  have hrun : (start [.clock (.empty 1)] .inMemory {}).run cs = s := rfl
  clear_value s
  have hw : s.engine.Within none := Engine.within_none _
  obtain ⟨state, hm, hstate⟩ := Option.map_eq_some_iff.1 hrefs
  obtain ⟨b, hb, hc⟩ := hcovers
  obtain ⟨hpartitioned, hroutes⟩ := partitioned_run hready hrun hw hm
  exact ⟨state, hm, hstate, hpartitioned, (hroutes 3 (by simp [hstate]) b hb 4#8).1 hc⟩

end Session

end PagedMap
