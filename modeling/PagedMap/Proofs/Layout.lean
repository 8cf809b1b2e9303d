import Mathlib
import PagedMap.Proofs.Block

/-!
# Layouts

A layout is the list of the blocks of a map in the order of its directory, each with its reference
and with its entries in memory.  The blocks tile the keys (`Layout.Tiled`) if each of them is in its
bounds, their numbers and references are distinct, every block starts behind the bounds of the one
before, and a successor is the block that comes next.

A put is routed by the starts: it goes to the last block that does not start after the key, and no
other block can have the key (`Tiled.lt_of_mem_left`, `Tiled.gt_of_mem_right`).  A block may be
exchanged for a changed one (`Tiled.exchange`) or for the two parts of a split
(`Tiled.exchange_split`).
-/

namespace PagedMap

/-- A block of a map with its reference. -/
structure Stretch (K V : Type) where
  ref : BlockRef
  block : Block K V

/-- The blocks of a map in order. -/
abbrev Layout (K V : Type) : Type := List (Stretch K V)

/-! ### Directories -/

namespace Directory

variable {K : Type} [LE K] [DecidableLE K]

/-- Every block starts after the one before. -/
def Ascending (d : Directory K) : Prop :=
  d.Pairwise fun a b => a.1.le b.1 = true ∧ b.1.le a.1 = false

theorem insert_eq {front back : Directory K} {start : Start K} {ref : BlockRef}
    (h : Ascending (front ++ (start, ref) :: back)) :
    insert start ref (front ++ back) = front ++ (start, ref) :: back := by
  induction front with
  | nil =>
    cases back with
    | nil => rfl
    | cons b back =>
      have := ((List.pairwise_cons.1 h).1 b (by simp)).2
      simp [insert, this]
  | cons a front ih =>
    obtain ⟨ha, hrest⟩ := List.pairwise_cons.1 h
    obtain ⟨hle, hnot⟩ := ha (start, ref) (by simp)
    simp only [List.cons_append, insert, hle, hnot, if_true, Bool.false_eq_true, if_false]
    rw [ih hrest]

/-- The block that takes a key is the last that does not start after it. -/
theorem floor?_eq_some {d : Directory K} {key : K} {ref : BlockRef} (h : d.floor? key = some ref) :
    ∃ front start back, d = front ++ (start, ref) :: back ∧ start.reaches key = true ∧
      ∀ b ∈ back, b.1.reaches key = false := by
  obtain ⟨⟨start, ref'⟩, hlast, rfl⟩ := Option.map_eq_some_iff.1 h
  obtain ⟨passed, hfilter⟩ := List.getLast?_eq_some_iff.1 hlast
  obtain ⟨front, rest, rfl, -, hrest⟩ := List.filter_eq_append_iff.1 hfilter
  obtain ⟨skipped, back, rfl, -, hreach, hback⟩ := List.filter_eq_cons_iff.1 hrest
  refine ⟨front ++ skipped, start, back, by simp, hreach, fun b hb => ?_⟩
  simpa using List.filter_eq_nil_iff.1 hback b hb

theorem floor?_eq_none {d : Directory K} {key : K} (h : d.floor? key = none) :
    ∀ b ∈ d, b.1.reaches key = false := by
  rw [floor?, Option.map_eq_none_iff, List.getLast?_eq_none_iff, List.filter_eq_nil_iff] at h
  simpa using h

end Directory

/-! ### Layouts -/

namespace Layout

variable {K V : Type}

/-- The starts and references of the blocks. -/
def directory (t : Layout K V) : Directory K := t.map fun s => (s.block.start, s.ref)

/-- The entries of all blocks. -/
def contents (t : Layout K V) : Entries K V := t.flatMap fun s => s.block.held

/-- A successor is the block that comes next. -/
def Linked : Layout K V → Prop
  | [] => True
  | s :: t => (∀ ref ∈ s.block.next, ∃ n ∈ t.head?, n.ref = ref) ∧ Linked t

variable [LE K] [DecidableLE K]

/-- The blocks are different, and the second starts behind the bounds of the first. -/
def Precedes (s t : Stretch K V) : Prop :=
  s.ref ≠ t.ref ∧ s.block.id ≠ t.block.id ∧
    ∃ k ∈ t.block.start.key?, ¬ k ≤ s.block.maxKey

/-- The blocks tile the keys of the map, and their numbers are at most `lastId`. -/
structure Tiled (lastId : Nat) (t : Layout K V) : Prop where
  blocks : ∀ s ∈ t, s.block.InBounds
  ids : ∀ s ∈ t, s.block.id ≤ lastId
  apart : t.Pairwise Precedes
  linked : t.Linked

variable {lastId : Nat} {t pre post : Layout K V} {s n : Stretch K V} {key : K} {value : V}

omit [LE K] [DecidableLE K] in
@[simp] theorem directory_append : directory (pre ++ post) = directory pre ++ directory post :=
  List.map_append

omit [LE K] [DecidableLE K] in
@[simp] theorem directory_cons : directory (s :: t) = (s.block.start, s.ref) :: directory t := rfl

omit [LE K] [DecidableLE K] in
@[simp] theorem refs_directory (t : Layout K V) : t.directory.refs = t.map (·.ref) := by
  rw [directory, Directory.refs, List.map_map]
  rfl

omit [LE K] [DecidableLE K] in
@[simp] theorem contents_append : contents (pre ++ post) = contents pre ++ contents post :=
  List.flatMap_append

omit [LE K] [DecidableLE K] in
@[simp] theorem contents_cons : contents (s :: t) = s.block.held ++ contents t := rfl

omit [LE K] [DecidableLE K] in
/-- A layout is recovered from a part of its directory. -/
theorem exists_of_directory_eq {front back : Directory K} {start : Start K} {ref : BlockRef}
    (h : t.directory = front ++ (start, ref) :: back) :
    ∃ pre s post, t = pre ++ s :: post ∧ directory pre = front ∧ directory post = back ∧
      s.block.start = start ∧ s.ref = ref := by
  obtain ⟨pre, rest, rfl, rfl, hrest⟩ := List.map_eq_append_iff.1 h
  obtain ⟨s, post, rfl, hs, rfl⟩ := List.map_eq_cons_iff.1 hrest
  obtain ⟨hstart, href⟩ := Prod.mk.inj hs
  exact ⟨pre, s, post, rfl, rfl, rfl, hstart, href⟩

theorem Tiled.ref_ne (h : Tiled lastId (pre ++ s :: post)) :
    (∀ x ∈ pre, x.ref ≠ s.ref) ∧ ∀ n ∈ post, n.ref ≠ s.ref := by
  obtain ⟨-, hrest, hcross⟩ := List.pairwise_append.1 h.apart
  exact ⟨fun x hx => (hcross x hx s (by simp)).1,
    fun n hn => ((List.pairwise_cons.1 hrest).1 n hn).1.symm⟩

variable [Std.IsLinearOrder K]

/-! ### Where a key may be -/

theorem Precedes.lt (h : Precedes s n) (hn : n.block.InBounds) :
    ¬ n.block.minKey ≤ s.block.maxKey := by
  obtain ⟨-, -, k, hk, hlt⟩ := h
  have := Block.reaches_iff.1 hn.reaches k hk
  grind

theorem Tiled.ascending (h : t.Tiled lastId) : t.directory.Ascending := by
  refine List.pairwise_map.2 (h.apart.imp_of_mem fun {s n} hs _ hp => ?_)
  obtain ⟨-, -, k, hk, hlt⟩ := hp
  obtain ⟨j, hj⟩ : ∃ j, n.block.start = .at k j := by
    cases hn : n.block.start with
    | head => simp [hn, Start.key?] at hk
    | «at» k' j => exact ⟨j, by simpa [hn, Start.key?] using hk⟩
  have hinBounds := h.blocks s hs
  have hle := hinBounds.min_le_max
  rw [hj]
  rcases hinBounds.start_eq with ⟨hstart, -⟩ | ⟨k', hstart, -⟩
  · simp [hstart, Start.le]
  · have hreach := Block.reaches_iff.1 hinBounds.reaches k' (by simp [hstart, Start.key?])
    have hlt' : ¬ k ≤ k' := by grind
    have hle' : k' ≤ k := by grind
    simp [hstart, Start.le, hlt', hle']

theorem Tiled.sorted_contents (h : t.Tiled lastId) : t.contents.Sorted := by
  refine List.pairwise_flatMap.2 ⟨fun s hs => (h.blocks s hs).sorted, ?_⟩
  refine h.apart.imp_of_mem fun {s n} hs hn hp a ha b hb => ?_
  have hlt := hp.lt (h.blocks n hn)
  have := (h.blocks s hs).within a ha
  have := (h.blocks n hn).within b hb
  grind

/-- Blocks before one that starts at the key or before have only smaller keys. -/
theorem Tiled.lt_of_mem_left (h : Tiled lastId (pre ++ s :: post))
    (hs : s.block.start.reaches key) : ∀ e ∈ contents pre, ¬ key ≤ e.1 := by
  intro e he
  obtain ⟨p, hp, he⟩ := List.mem_flatMap.1 he
  obtain ⟨-, -, k, hk, hlt⟩ := (List.pairwise_append.1 h.apart).2.2 p hp s (by simp)
  have := Block.reaches_iff.1 hs k hk
  have := (h.blocks p (by simp [hp])).within e he
  grind

theorem Tiled.gt_of_mem_right (h : Tiled lastId (pre ++ s :: post))
    (hpost : ∀ n ∈ post, n.block.start.reaches key = false) : ∀ e ∈ contents post, ¬ e.1 ≤ key := by
  intro e he
  obtain ⟨n, hn, he⟩ := List.mem_flatMap.1 he
  obtain ⟨-, -, k, hk, -⟩ := (List.pairwise_cons.1 (List.pairwise_append.1 h.apart).2.1).1 n hn
  have hinBounds := h.blocks n (by simp [hn])
  have hreach := Block.reaches_iff.1 hinBounds.reaches k hk
  have hnot : ¬ k ≤ key := fun hle => by
    have hall : n.block.start.reaches key = true := Block.reaches_iff.2 fun k' hk' => by
      obtain rfl := Option.mem_unique hk hk'
      exact hle
    simp [hpost n hn] at hall
  have := hinBounds.within e he
  grind

/-! ### Exchanging a block -/

omit [LE K] [DecidableLE K] [Std.IsLinearOrder K] in
theorem Linked.right (h : Linked (pre ++ t)) : Linked t := by
  induction pre with
  | nil => exact h
  | cons x pre ih => exact ih h.2

omit [LE K] [DecidableLE K] [Std.IsLinearOrder K] in
/-- The links up to a block do not depend on what the block is. -/
theorem Linked.exchange {post' : Layout K V} (h : Linked (pre ++ s :: post)) (href : n.ref = s.ref)
    (hn : Linked (n :: post')) : Linked (pre ++ n :: post') := by
  induction pre with
  | nil => exact hn
  | cons x pre ih =>
    refine ⟨fun ref hnext => ?_, ih h.2⟩
    obtain ⟨m, hm, rfl⟩ := h.1 ref hnext
    cases pre with
    | nil =>
      obtain rfl : s = m := Option.some.inj hm
      exact ⟨n, rfl, href⟩
    | cons y pre => exact ⟨m, hm, rfl⟩

omit [DecidableLE K] [Std.IsLinearOrder K] in
/-- A block with the same number stays before one that starts behind its bounds. -/
theorem Precedes.exchange_left {b : Block K V} (h : Precedes s n) (hid : b.id = s.block.id)
    (hmax : ∀ k ∈ n.block.start.key?, ¬ k ≤ b.maxKey) : Precedes ⟨s.ref, b⟩ n := by
  obtain ⟨href, hids, k, hk, -⟩ := h
  exact ⟨href, hid ▸ hids, k, hk, hmax k hk⟩

omit [DecidableLE K] [Std.IsLinearOrder K] in
/-- A block with the same number and start stays behind the others. -/
theorem Precedes.exchange_right {b : Block K V} (h : Precedes n s) (hid : b.id = s.block.id)
    (hstart : b.start = s.block.start) : Precedes n ⟨s.ref, b⟩ := by
  obtain ⟨href, hids, k, hk, hlt⟩ := h
  exact ⟨href, hid ▸ hids, k, hstart ▸ hk, hlt⟩

omit [Std.IsLinearOrder K] in
/-- A block may be exchanged for one with the same start, number and successor whose bounds end
before the next block starts. -/
theorem Tiled.exchange (h : Tiled lastId (pre ++ s :: post)) {b : Block K V} (hb : b.InBounds)
    (hstart : b.start = s.block.start) (hid : b.id = s.block.id) (hnext : b.next = s.block.next)
    (hmax : ∀ n ∈ post, ∀ k ∈ n.block.start.key?, ¬ k ≤ b.maxKey) :
    Tiled lastId (pre ++ ⟨s.ref, b⟩ :: post) := by
  obtain ⟨hpre, hrest, hcross⟩ := List.pairwise_append.1 h.apart
  obtain ⟨hs, hpost⟩ := List.pairwise_cons.1 hrest
  have hlinked := h.linked.right
  have hblocks := h.blocks
  have hids := h.ids
  rw [List.forall_mem_append, List.forall_mem_cons] at hblocks hids
  refine ⟨?_, ?_, List.pairwise_append.2 ⟨hpre, List.pairwise_cons.2 ⟨?_, hpost⟩, ?_⟩,
    h.linked.exchange rfl ⟨hnext ▸ hlinked.1, hlinked.2⟩⟩
  · rw [List.forall_mem_append, List.forall_mem_cons]
    exact ⟨hblocks.1, hb, hblocks.2.2⟩
  · rw [List.forall_mem_append, List.forall_mem_cons]
    exact ⟨hids.1, hid ▸ hids.2.1, hids.2.2⟩
  · exact fun n hn => (hs n hn).exchange_left hid (hmax n hn)
  · intro x hx n hn
    rcases List.mem_cons.1 hn with rfl | hn
    · exact (hcross x hx s List.mem_cons_self).exchange_right hid hstart
    · exact hcross x hx n (List.mem_cons_of_mem _ hn)

/-- A block may be exchanged for the two parts of a split, of which the upper one is new. -/
theorem Tiled.exchange_split (h : Tiled lastId (pre ++ s :: post)) {b lower upper : Block K V}
    {ref : BlockRef} [Sized K] [Sized V] (hb : b.InBounds) (hstart : b.start = s.block.start)
    (hid : b.id = s.block.id) (hnext : b.next = s.block.next)
    (hmax : ∀ n ∈ post, ∀ k ∈ n.block.start.key?, ¬ k ≤ b.maxKey)
    (href : ∀ x ∈ pre ++ s :: post, x.ref ≠ ref)
    (hsplit : b.split? (lastId + 1) ref = some (lower, upper)) :
    Tiled (lastId + 1) (pre ++ ⟨s.ref, lower⟩ :: ⟨ref, upper⟩ :: post) := by
  obtain ⟨hlower, hupper, k, hk, hlt, hupmax⟩ := hb.split (Nat.succ_ne_zero _) hsplit
  obtain ⟨hpre, hrest, hcross⟩ := List.pairwise_append.1 h.apart
  obtain ⟨hs, hpost⟩ := List.pairwise_cons.1 hrest
  have hlinked := h.linked.right
  obtain ⟨hls, hli, hln, hui, hun⟩ : lower.start = b.start ∧ lower.id = b.id ∧
    lower.next = some ref ∧
      upper.id = lastId + 1 ∧ upper.next = b.next := by
    obtain ⟨_, _, _, -, _, _, _, _, -, -, -, -, rfl, rfl⟩ := Block.split?_eq_some hsplit
    exact ⟨rfl, rfl, rfl, rfl, rfl⟩
  have hkey : k ∈ upper.start.key? := by simp [hk, Start.key?]
  have hreach := Block.reaches_iff.1 hupper.reaches k hkey
  have hlow := hlower.min_le_max
  have hup := hupper.min_le_max
  have hnew : ∀ x ∈ pre ++ s :: post, x.block.id ≠ lastId + 1 := fun x hx heq => by
    have := h.ids x hx
    omega
  -- The upper part is new, starts behind the lower part and ends where the block did.
  have hparts : Precedes ⟨s.ref, lower⟩ ⟨ref, upper⟩ :=
    ⟨href s (by simp), by simpa only [hli, hid, hui] using hnew s (by simp), k, hkey, hlt⟩
  have hlowerPost : ∀ n ∈ post, Precedes ⟨s.ref, lower⟩ n := fun n hn =>
    (hs n hn).exchange_left (hli.trans hid) fun j hj => by
      have := hmax n hn j hj
      grind
  have hupperPost : ∀ n ∈ post, Precedes ⟨ref, upper⟩ n := fun n hn => by
    obtain ⟨-, -, j, hj, -⟩ := hs n hn
    have := hmax n hn j hj
    refine ⟨(href n (by simp [hn])).symm, ?_, j, hj, by grind⟩
    simpa only [hui] using (hnew n (by simp [hn])).symm
  have hpreLower : ∀ x ∈ pre, Precedes x ⟨s.ref, lower⟩ := fun x hx =>
    (hcross x hx s List.mem_cons_self).exchange_right (hli.trans hid) (hls.trans hstart)
  have hpreUpper : ∀ x ∈ pre, Precedes x ⟨ref, upper⟩ := fun x hx => by
    obtain ⟨-, -, j, hj, hxj⟩ := hpreLower x hx
    have := Block.reaches_iff.1 hlower.reaches j hj
    refine ⟨href x (by simp [hx]), ?_, k, hkey, by grind⟩
    simpa only [hui] using hnew x (by simp [hx])
  refine ⟨?_, ?_, List.pairwise_append.2 ⟨hpre, ?_, ?_⟩, h.linked.exchange rfl ⟨?_, ?_, hlinked.2⟩⟩
  · have hblocks := h.blocks
    rw [List.forall_mem_append, List.forall_mem_cons] at hblocks
    rw [List.forall_mem_append, List.forall_mem_cons, List.forall_mem_cons]
    exact ⟨hblocks.1, hlower, hupper, hblocks.2.2⟩
  · have hids : ∀ x ∈ pre ++ s :: post, x.block.id ≤ lastId + 1 := fun x hx =>
      Nat.le_succ_of_le (h.ids x hx)
    rw [List.forall_mem_append, List.forall_mem_cons] at hids
    rw [List.forall_mem_append, List.forall_mem_cons, List.forall_mem_cons]
    exact ⟨hids.1, (hli.trans hid).symm ▸ hids.2.1, hui.le, hids.2.2⟩
  · rw [List.pairwise_cons, List.pairwise_cons, List.forall_mem_cons]
    exact ⟨⟨hparts, hlowerPost⟩, hupperPost, hpost⟩
  · intro x hx
    rw [List.forall_mem_cons, List.forall_mem_cons]
    exact ⟨hpreLower x hx, hpreUpper x hx, fun n hn => hcross x hx n (List.mem_cons_of_mem _ hn)⟩
  · intro r hr
    rw [hln] at hr
    exact ⟨⟨ref, upper⟩, rfl, Option.some.inj hr⟩
  · intro r hr
    rw [hun, hnext] at hr
    exact hlinked.1 r hr

end Layout

end PagedMap
