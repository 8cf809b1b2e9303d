import Mathlib
import PagedMap.Proofs.Growth
import PagedMap.Proofs.Refinement

/-!
# Scans over a map that changes

The queue of a scan is made when it is opened, and blocks are split later, before, at and behind the
block it is at.  Since starts do not change and a successor is always the block that comes next, the
scan goes through the blocks in the order of their starts all the same (`Scan.Traces`): what it has
yet to come to starts behind the bounds that the block it came to last had when it was read.

So no key is met twice, and the keys ascend.  No key is passed over either: as long as an entry
stays in the map, it is in a block that the scan has read, or the successors lead to it from a block
of the queue that the scan has yet to come to.  A request between two steps of the scan keeps this
(`Scan.Traces.grow`), and so does reading a block (`Scan.Traces.visit`).
-/

namespace PagedMap

variable {K V : Type}

/-- The key is neither before `first` nor after `last`, where these are given. -/
def InRange [LE K] (first last : Option K) (key : K) : Prop :=
  (∀ k ∈ first, k ≤ key) ∧ ∀ k ∈ last, key ≤ k

/-! ### Blocks behind a block -/

namespace Layout

variable [LE K] [DecidableLE K] {t pre post : Layout K V} {x y : Stretch K V}
  {lastId : Nat} {key : K}

/-- A key of the contents is a key of a block. -/
theorem exists_value?_isSome (h : (Entries.value? t.contents key).isSome = true) :
    ∃ x ∈ t, (Entries.value? x.block.held key).isSome = true := by
  induction t with
  | nil => simp [Layout.contents, Entries.value?] at h
  | cons x t ih =>
    rw [contents_cons, Entries.value?_append, Option.isSome_or, Bool.or_eq_true] at h
    rcases h with h | h
    · exact ⟨x, List.mem_cons_self, h⟩
    · obtain ⟨y, hy, hkey⟩ := ih h
      exact ⟨y, List.mem_cons_of_mem _ hy, hkey⟩

omit [LE K] [DecidableLE K] in
/-- With every block that is visited there are fewer left to visit. -/
theorem length_fresh_lt {visited : List Nat} (hx : x ∈ t) (hfresh : x.block.id ∉ visited) :
    (t.filter fun y => decide (y.block.id ∉ x.block.id :: visited)).length <
      (t.filter fun y => decide (y.block.id ∉ visited)).length := by
  have hsub : (t.filter fun y => decide (y.block.id ∉ x.block.id :: visited)) =
      (t.filter fun y => decide (y.block.id ∉ visited)).filter
        fun y => decide (y.block.id ≠ x.block.id) := by
    rw [List.filter_filter]
    exact List.filter_congr fun y _ => by simp
  have hmem : x ∈ t.filter fun y => decide (y.block.id ∉ visited) :=
    List.mem_filter.2 ⟨hx, by simpa using hfresh⟩
  rw [hsub]
  exact List.length_filter_lt_length_iff_exists.2 ⟨x, hmem, by simp⟩

/-- The blocks behind a block start after its bounds. -/
theorem Tiled.not_reaches_maxKey (h : Tiled lastId (pre ++ x :: post)) (hy : y ∈ post) :
    y.block.start.reaches x.block.maxKey = false := by
  obtain ⟨-, -, k, hk, hlt⟩ := (List.pairwise_cons.1 (List.pairwise_append.1 h.apart).2.1).1 y hy
  rw [Bool.eq_false_iff]
  intro hreach
  exact hlt (Block.reaches_iff.1 hreach k hk)

variable [Std.IsLinearOrder K]

theorem Tiled.reaches_maxKey (h : t.Tiled lastId) (hx : x ∈ t) :
    x.block.start.reaches x.block.maxKey = true := by
  have hinBounds := h.blocks x hx
  have hstart := Block.reaches_iff.1 hinBounds.reaches
  exact Block.reaches_iff.2 fun k hk => Std.le_trans (hstart k hk) hinBounds.min_le_max

/-- A block that does not start before another one is this block or comes behind it. -/
theorem Tiled.mem_of_le (h : Tiled lastId (pre ++ x :: post)) (hy : y ∈ pre ++ x :: post)
    (hle : x.block.start.le y.block.start = true) : y = x ∨ y ∈ post := by
  rcases List.mem_append.1 hy with hy | hy
  · have hascending := h.ascending
    rw [directory_append, directory_cons] at hascending
    have hcross := (List.pairwise_append.1 hascending).2.2 (y.block.start, y.ref)
      (List.mem_map_of_mem hy) (x.block.start, x.ref) (by simp)
    rw [hcross.2] at hle
    simp at hle
  · exact List.mem_cons.1 hy

omit [Std.IsLinearOrder K] in
theorem Tiled.right (h : Tiled lastId (pre ++ t)) : Tiled lastId t :=
  ⟨fun y hy => h.blocks y (by simp [hy]), fun y hy => h.ids y (by simp [hy]),
    (List.pairwise_append.1 h.apart).2.1, h.linked.right⟩

theorem Tiled.start_le (h : Tiled lastId (x :: post)) (hy : y ∈ x :: post) :
    x.block.start.le y.block.start = true := by
  rcases List.mem_cons.1 hy with rfl | hy
  · cases y.block.start <;> simp [Start.le, Std.le_refl]
  · have hascending := h.ascending
    rw [directory_cons] at hascending
    exact ((List.pairwise_cons.1 hascending).1 (y.block.start, y.ref) (List.mem_map_of_mem hy)).1

theorem Tiled.lt_of_not_reaches (h : t.Tiled lastId) (hx : x ∈ t)
    (hkey : x.block.start.reaches key = false) : ¬ x.block.minKey ≤ key := by
  obtain ⟨k, hk, hlt⟩ := exists_start_of_not_reaches hkey
  have hmin := Block.reaches_iff.1 (h.blocks x hx).reaches k hk
  exact fun hle => hlt (Std.le_trans hmin hle)

end Layout

/-! ### What is known of a scan -/

namespace Scan

section Traces

variable [LE K] [DecidableLE K]

/-- The scan goes through the blocks of a map in the order of their starts.  It has given the values
of the keys `seen` and holds those of the entries `read`; `coming` are the blocks of its queue, and
the blocks that it has come to had keys up to `reached` at most.  `past` are the contents of the map
since the scan was opened. -/
structure Traces (first last : Option K) (past : Set (Entries K V)) (t : Layout K V) (seen : List K)
    (read : Entries K V) (coming : List (Mark K)) (reached : Option K) (s : Scan K V) : Prop where
  range : s.first = first ∧ s.last = last
  buffer : s.buffer = read.map (·.2)
  queue : s.queue = coming.map (·.ref)
  listed : coming ⊆ t.marks
  visited : ∀ id ∈ s.visited, ∃ μ ∈ t.marks, μ.id = id ∧ ∃ k ∈ reached, μ.start.reaches k = true
  ahead : ∀ μ ∈ coming, μ.id ∉ s.visited → ∀ k ∈ reached, μ.start.reaches k = false
  ordered : coming.Pairwise fun μ ν => ν.id ∉ s.visited → μ.start.le ν.start = true
  ascending : (seen ++ read.map (·.1)).Pairwise fun a b => ¬ b ≤ a
  behind : ∀ key ∈ seen ++ read.map (·.1), ∃ k ∈ reached, key ≤ k
  told : ∀ entry ∈ read, InRange first last entry.1 ∧
    ∃ es ∈ past, Entries.value? es entry.1 = some entry.2
  covered : ∀ key, InRange first last key → (∀ es ∈ past, (Entries.value? es key).isSome = true) →
    key ∈ seen ++ read.map (·.1) ∨ ∃ μ ∈ coming, μ.id ∉ s.visited ∧ ∃ x ∈ t, t.Leads μ.ref x.ref ∧
      (Entries.value? x.block.held key).isSome = true

variable {first last : Option K} {past past' : Set (Entries K V)} {t t' pre post : Layout K V}
  {seen : List K} {read : Entries K V} {coming passed rest : List (Mark K)} {reached : Option K}
  {s : Scan K V} {x : Stretch K V} {lastId : Nat}

/-- While the map grows the scan loses nothing. -/
theorem Traces.grow (h : s.Traces first last past t seen read coming reached) (hgrows : t.Grows t')
    (hpast : past ⊆ past') (hnew : t'.contents ∈ past') :
    s.Traces first last past' t' seen read coming reached where
  range := h.range
  buffer := h.buffer
  queue := h.queue
  listed := fun _ hμ => hgrows.marks (h.listed hμ)
  visited id hid := by
    obtain ⟨μ, hμ, hrest⟩ := h.visited id hid
    exact ⟨μ, hgrows.marks hμ, hrest⟩
  ahead := h.ahead
  ordered := h.ordered
  ascending := h.ascending
  behind := h.behind
  told entry hentry := by
    obtain ⟨hrange, es, hes, hvalue⟩ := h.told entry hentry
    exact ⟨hrange, es, hpast hes, hvalue⟩
  covered key hrange hlasting := by
    refine (h.covered key hrange fun es hes => hlasting es (hpast hes)).imp_right ?_
    rintro ⟨μ, hμ, hfresh, x, hx, hleads, hkey⟩
    obtain ⟨x', hx', hleads', hkey'⟩ := hgrows.kept x hx key hkey (hlasting _ hnew)
    exact ⟨μ, hμ, hfresh, x', hx', (hgrows.leads hleads).trans hleads', hkey'⟩

/-- What a scan that has given the values of the keys `seen` gives next, with the keys afterwards:
the value of a key behind them, or nothing when it has given those of all keys that stayed. -/
inductive Yields (first last : Option K) (past : Set (Entries K V)) (seen : List K) :
    Option V → List K → Prop
  | value {key : K} {v : V} (range : InRange first last key)
      (told : ∃ es ∈ past, Entries.value? es key = some v) (behind : ∀ k ∈ seen, ¬ key ≤ k) :
      Yields first last past seen (some v) (seen ++ [key])
  | done (complete : ∀ key, InRange first last key →
      (∀ es ∈ past, (Entries.value? es key).isSome = true) → key ∈ seen) :
      Yields first last past seen none seen

/-- The scan gives the value of the next entry that it read. -/
theorem Traces.give {entry : K × V}
    (h : s.Traces first last past t seen (entry :: read) coming reached) :
    Traces first last past t (seen ++ [entry.1]) read coming reached
      { s with buffer := read.map (·.2) } ∧
      Yields first last past seen (some entry.2) (seen ++ [entry.1]) := by
  obtain ⟨hrange, htold⟩ := h.told entry List.mem_cons_self
  have hbehind : ∀ k ∈ seen, ¬ entry.1 ≤ k := fun k hk =>
    (List.pairwise_append.1 h.ascending).2.2 k hk entry.1 (by simp)
  refine ⟨?_, .value hrange htold hbehind⟩
  have happend : (seen ++ [entry.1]) ++ read.map (·.1) = seen ++ (entry :: read).map (·.1) := by
    simp
  refine ⟨h.range, rfl, h.queue, h.listed, h.visited, h.ahead, h.ordered, ?_, ?_,
    fun y hy => h.told y (List.mem_cons_of_mem _ hy), ?_⟩ <;> rw [happend]
  · exact h.ascending
  · exact h.behind
  · exact h.covered

/-- A scan that has come to all blocks of its queue has given the values of all keys that stayed. -/
theorem Traces.finish (h : s.Traces first last past t seen [] coming reached)
    (hall : ∀ μ ∈ coming, μ.id ∈ s.visited) :
    s.ended.Traces first last past t seen [] [] reached ∧
      Yields first last past seen none seen := by
  have hseen (key : K) (hrange : InRange first last key)
      (hlasting : ∀ es ∈ past, (Entries.value? es key).isSome = true) : key ∈ seen := by
    rcases h.covered key hrange hlasting with hkey | ⟨μ, hμ, hfresh, -⟩
    · simpa using hkey
    · exact absurd (hall μ hμ) hfresh
  refine ⟨⟨h.range, rfl, rfl, by simp, h.visited, by simp, List.Pairwise.nil, h.ascending, h.behind,
    by simp, fun key hrange hlasting => ?_⟩, .done hseen⟩
  exact Or.inl (by simpa using hseen key hrange hlasting)

variable [Std.IsLinearOrder K]

/-- The scan has not come to the blocks behind the one that it comes to next. -/
theorem Traces.fresh_behind
    (h : s.Traces first last past (pre ++ x :: post) seen read (passed ++ x.mark :: rest) reached)
    (ht : Layout.Tiled lastId (pre ++ x :: post)) (hx : x.block.id ∉ s.visited) {y : Stretch K V}
    (hy : y ∈ post) : y.block.id ∉ x.block.id :: s.visited := by
  have hxt : x ∈ pre ++ x :: post := by simp
  have hyt : y ∈ pre ++ x :: post := by simp [hy]
  have hne := ((List.pairwise_cons.1 (List.pairwise_append.1 ht.apart).2.1).1 y hy).2.1
  intro hid
  rcases List.mem_cons.1 hid with hid | hid
  · exact hne hid.symm
  · obtain ⟨μ, hμ, hμid, k, hk, hreach⟩ := h.visited _ hid
    obtain ⟨z, hz, rfl⟩ := List.mem_map.1 hμ
    obtain rfl := ht.eq_of_id hz hyt hμid
    -- `z` starts up to `k`, and `x`, which `z` comes behind, after `k`.
    have hahead := h.ahead x.mark (by simp) hx k hk
    have hlt := ht.lt_of_not_reaches hxt hahead
    have hmax := ht.not_reaches_maxKey hy
    obtain ⟨j, hj, hjlt⟩ := Layout.exists_start_of_not_reaches hmax
    have hjk := Block.reaches_iff.1 hreach j hj
    have hmin := (ht.blocks x hxt).min_le_max
    grind

/-- What the queue still holds besides the block that the scan comes to next is behind this
block. -/
theorem Traces.rest_behind
    (h : s.Traces first last past (pre ++ x :: post) seen read (passed ++ x.mark :: rest) reached)
    (ht : Layout.Tiled lastId (pre ++ x :: post)) {μ : Mark K} (hμ : μ ∈ rest)
    (hfresh : μ.id ∉ x.block.id :: s.visited) : ∃ y ∈ post, y.mark = μ := by
  obtain ⟨y, hy, rfl⟩ := List.mem_map.1 (h.listed (by simp [hμ] : μ ∈ passed ++ x.mark :: rest))
  have hordered := (List.pairwise_cons.1 (List.pairwise_append.1 h.ordered).2.1).1 _ hμ
  rcases ht.mem_of_le hy (hordered fun hid => hfresh (List.mem_cons_of_mem _ hid)) with rfl | hpost
  · exact absurd List.mem_cons_self hfresh
  · exact ⟨y, hpost, rfl⟩

/-- What the scan comes to behind a block is in the order of the starts. -/
theorem Traces.ordered_behind {next : Layout K V}
    (h : s.Traces first last past (pre ++ x :: post) seen read (passed ++ x.mark :: rest) reached)
    (ht : Layout.Tiled lastId (pre ++ x :: post)) (hnext : next <+: post.take 1) :
    (next.map Stretch.mark ++ rest).Pairwise fun μ ν =>
      ν.id ∉ x.block.id :: s.visited → μ.start.le ν.start = true := by
  refine List.pairwise_append.2 ⟨?_, ?_, ?_⟩
  · refine List.Pairwise.sublist (hnext.sublist.map _) ?_
    cases post <;> simp
  · refine (List.pairwise_cons.1 (List.pairwise_append.1 h.ordered).2.1).2.imp fun hle hfresh => ?_
    exact hle fun hid => hfresh (List.mem_cons_of_mem _ hid)
  · intro μ hμ ν hν hfresh
    obtain ⟨z, hz, rfl⟩ := List.mem_map.1 hμ
    obtain ⟨y, hy, rfl⟩ := h.rest_behind ht hν hfresh
    obtain ⟨post, rfl⟩ : ∃ post', post = z :: post' := by
      cases post with
      | nil => simp at hy
      | cons w post => exact ⟨post, by simpa using (List.mem_singleton.1 (hnext.subset hz)).symm⟩
    have hbehind : Layout.Tiled lastId ([x] ++ z :: post) := ht.right
    exact hbehind.right.start_le hy

/-- The keys seen come before the block that the scan comes to next. -/
theorem Traces.lt_of_seen
    (h : s.Traces first last past t seen read (passed ++ x.mark :: rest) reached)
      (ht : t.Tiled lastId)
    (hxt : x ∈ t) (hx : x.block.id ∉ s.visited) :
    (∀ k ∈ reached, ¬ x.block.minKey ≤ k) ∧ ∀ key ∈ seen, ¬ x.block.minKey ≤ key := by
  have hreached : ∀ k ∈ reached, ¬ x.block.minKey ≤ k := fun k hk =>
    ht.lt_of_not_reaches hxt (h.ahead x.mark (by simp) hx k hk)
  refine ⟨hreached, fun key hkey hle => ?_⟩
  obtain ⟨k, hk, hkeyk⟩ := h.behind key (by simp [hkey])
  exact hreached k hk (Std.le_trans hle hkeyk)

/-- Where the scan reads a block, the other entries that it has to come to are still ahead. -/
theorem Traces.covered_behind {next : Layout K V} {key : K}
    (h : s.Traces first last past (pre ++ x :: post) seen [] (passed ++ x.mark :: rest) reached)
    (ht : Layout.Tiled lastId (pre ++ x :: post)) (hpassed : ∀ μ ∈ passed, μ.id ∈ s.visited)
    (hx : x.block.id ∉ s.visited) (hnext : next ⊆ post)
    (hlink : x.block.next.toList = next.map (·.ref)) (hrange : InRange first last key)
    (hlasting : ∀ es ∈ past, (Entries.value? es key).isSome = true) :
    key ∈ seen ∨ (Entries.value? x.block.held key).isSome = true ∨
      ∃ μ ∈ next.map Stretch.mark ++ rest, μ.id ∉ x.block.id :: s.visited ∧
        ∃ y ∈ pre ++ x :: post, Layout.Leads (pre ++ x :: post) μ.ref y.ref ∧
          (Entries.value? y.block.held key).isSome = true := by
  have hxt : x ∈ pre ++ x :: post := by simp
  rcases h.covered key hrange hlasting with hkey | ⟨μ, hμ, hfresh, y, hy, hleads, hkey⟩
  · exact Or.inl (by simpa using hkey)
  right
  rcases List.mem_append.1 hμ with hμ | hμ
  · exact absurd (hpassed μ hμ) hfresh
  by_cases hid : μ.id = x.block.id
  · -- The successors lead from the block itself: to it, or through the one that comes next.
    obtain ⟨z, hz, rfl⟩ := List.mem_map.1 (h.listed (List.mem_append_right passed hμ))
    obtain rfl := ht.eq_of_id hz hxt hid
    rcases hleads.cases_head with href | ⟨c, ⟨w, hw, hwz, hwc⟩, hleads⟩
    · obtain rfl := ht.eq_of_ref hxt hy href
      exact Or.inl hkey
    · obtain rfl := ht.eq_of_ref hw hxt hwz
      rw [hwc] at hlink
      have hc : c ∈ next.map (·.ref) := by
        rw [← hlink]
        exact List.mem_singleton_self c
      obtain ⟨v, hv, rfl⟩ := List.mem_map.1 hc
      exact Or.inr ⟨v.mark, by simp [List.mem_map_of_mem hv], h.fresh_behind ht hx (hnext hv), y,
        hy, hleads, hkey⟩
  · rcases List.mem_cons.1 hμ with rfl | hμ
    · exact absurd rfl hid
    · exact Or.inr ⟨μ, by simp [hμ], by simp [hid, hfresh], y, hy, hleads, hkey⟩

/-- A scan that has read a block goes on with the blocks behind it. -/
theorem Traces.visit {next : Layout K V} {es : Entries K V}
    (h : s.Traces first last past (pre ++ x :: post) seen [] (passed ++ x.mark :: rest) reached)
    (ht : Layout.Tiled lastId (pre ++ x :: post))
    (hpast : Layout.contents (pre ++ x :: post) ∈ past)
    (hpassed : ∀ μ ∈ passed, μ.id ∈ s.visited) (hx : x.block.id ∉ s.visited)
    (hes : es = Entries.between x.block.held first last) (hnext : next <+: post.take 1)
    (hlink : x.block.next.toList = next.map (·.ref)) :
    Traces first last past (pre ++ x :: post) seen es (next.map Stretch.mark ++ rest)
      (some x.block.maxKey) { s with
        queue := next.map (·.ref) ++ rest.map (·.ref)
        visited := x.block.id :: s.visited
        buffer := es.map (·.2) } := by
  have hxt : x ∈ pre ++ x :: post := by simp
  have hnextpost : next ⊆ post := fun y hy => List.mem_of_mem_take (hnext.subset hy)
  obtain ⟨hreached, hseen⟩ := h.lt_of_seen ht hxt hx
  have hmin := (ht.blocks x hxt).min_le_max
  have hread : ∀ entry ∈ es, entry ∈ x.block.held ∧ InRange first last entry.1 ∧
      x.block.minKey ≤ entry.1 ∧ entry.1 ≤ x.block.maxKey := by
    intro entry hentry
    obtain ⟨hmem, hrange⟩ := Entries.mem_between.1 (hes ▸ hentry)
    exact ⟨hmem, hrange, (ht.blocks x hxt).within entry hmem⟩
  constructor
  case range => exact h.range
  case buffer => rfl
  case queue => simp [List.map_map, Function.comp_def, Stretch.mark]
  case listed =>
    refine List.append_subset.2 ⟨?_, fun μ hμ => h.listed (by simp [hμ])⟩
    intro μ hμ
    obtain ⟨y, hy, rfl⟩ := List.mem_map.1 hμ
    exact Layout.mem_marks (by simp [hnextpost hy])
  case visited =>
    -- the block that was read is visited now, and the bound reached is its greatest key
    intro id hid
    rcases List.mem_cons.1 hid with rfl | hid
    · exact ⟨x.mark, Layout.mem_marks hxt, rfl, _, rfl, ht.reaches_maxKey hxt⟩
    · obtain ⟨μ, hμ, hμid, k, hk, hreach⟩ := h.visited id hid
      refine ⟨μ, hμ, hμid, _, rfl, Block.reaches_iff.2 fun j hj => ?_⟩
      have hjk := Block.reaches_iff.1 hreach j hj
      have hlt := hreached k hk
      grind
  case ahead =>
    intro μ hμ hfresh k hk
    obtain rfl := Option.some.inj hk
    rcases List.mem_append.1 hμ with hμ | hμ
    · obtain ⟨y, hy, rfl⟩ := List.mem_map.1 hμ
      exact ht.not_reaches_maxKey (hnextpost hy)
    · obtain ⟨y, hy, rfl⟩ := h.rest_behind ht hμ hfresh
      exact ht.not_reaches_maxKey hy
  case ordered => exact h.ordered_behind ht hnext
  case ascending =>
    refine List.pairwise_append.2 ⟨by simpa using h.ascending, ?_, ?_⟩
    · rw [hes, List.pairwise_map]
      exact List.Pairwise.filter _ (ht.blocks x hxt).sorted
    · intro key hkey k hk hle
      obtain ⟨entry, hentry, rfl⟩ := List.mem_map.1 hk
      exact hseen key hkey (Std.le_trans (hread entry hentry).2.2.1 hle)
  case behind =>
    intro key hkey
    refine ⟨_, rfl, ?_⟩
    rcases List.mem_append.1 hkey with hkey | hkey
    · have hlt := hseen key hkey
      grind
    · obtain ⟨entry, hentry, rfl⟩ := List.mem_map.1 hkey
      exact (hread entry hentry).2.2.2
  case told =>
    intro entry hentry
    obtain ⟨hmem, hrange, -⟩ := hread entry hentry
    refine ⟨hrange, _, hpast, (Entries.value?_eq_some_iff ht.sorted_contents).2 ?_⟩
    exact List.mem_flatMap.2 ⟨x, hxt, hmem⟩
  case covered =>
    intro key hrange hlasting
    -- `h.covered_behind` leaves the keys of the block itself, which are among those read
    rw [List.mem_append, or_assoc]
    refine (h.covered_behind ht hpassed hx hnextpost hlink hrange hlasting).imp_right
      (Or.imp_left fun hkey => ?_)
    obtain ⟨value, hvalue⟩ := Option.isSome_iff_exists.1 hkey
    have hmem := Entries.mem_of_value?_eq_some hvalue
    rw [hes]
    exact List.mem_map.2 ⟨(key, value), Entries.mem_between.2 ⟨hmem, hrange⟩, rfl⟩

end Traces

variable [LE K] [DecidableLE K]

/-- The scan goes through the blocks of a map that changes, and has given the values of the keys
`seen`. -/
def Tracked (first last : Option K) (past : Set (Entries K V)) (t : Layout K V) (seen : List K)
    (s : Scan K V) : Prop :=
  ∃ read coming reached, s.Traces first last past t seen read coming reached

variable [Wire K] [Wire V] [Std.IsLinearOrder K] {first last : Option K} {past : Set (Entries K V)}
  {t : Layout K V} {seen : List K} {coming : List (Mark K)} {reached : Option K} {s : Scan K V}
  {lastId : Nat} {e : Engine K V}

/-- A scan that has given all values that it read has come to the blocks of its queue, or it comes
to a block and goes on behind it. -/
theorem Traces.visit? (h : s.Traces first last past t seen [] coming reached) (ht : t.Tiled lastId)
    (hshows : ∀ x ∈ t, e.Shows x) (hpast : t.contents ∈ past) :
    s.visit? e = none ∧ (∀ μ ∈ coming, μ.id ∈ s.visited) ∨
      ∃ x ∈ t, ∃ s', s.visit? e = some (x.ref, s') ∧ s'.first = first ∧ s'.last = last ∧
        x.block.id ∉ s.visited ∧ ∀ (e' : Engine K V) (values : List V), (∀ y ∈ t, e'.Shows y) →
          values = (Entries.between x.block.held first last).map (·.2) →
            (s'.filled e' values x.block.next).visited = x.block.id :: s.visited ∧
              (s'.filled e' values x.block.next).Tracked first last past t seen := by
  have hids : ∀ μ ∈ coming, ∃ b, e.blocks[μ.ref]? = some b ∧ b.id = μ.id := by
    intro μ hμ
    obtain ⟨x, hx, rfl⟩ := List.mem_map.1 (h.listed hμ)
    obtain ⟨b, hb, -, hxb⟩ := hshows x hx
    exact ⟨b, hb, by rw [Stretch.mark, hxb]; rfl⟩
  rcases visit?_cases h.queue hids with hdone | ⟨passed, μ, rest, rfl, hpassed, hfresh, hvisit⟩
  · exact Or.inl hdone
  obtain ⟨x, hx, rfl⟩ := List.mem_map.1 (h.listed (by simp : μ ∈ passed ++ μ :: rest))
  obtain ⟨pre, post, rfl⟩ := List.append_of_mem hx
  set s' : Scan K V := { s with
    queue := rest.map (·.ref)
    visited := x.block.id :: s.visited
    buffer := [] } with hs'
  refine Or.inr ⟨x, hx, s', hvisit, h.range.1, h.range.2, hfresh,
    fun e' values hshows' hvalues => ?_⟩
  have hlinked : Layout.Linked (x :: post) := ht.linked.right
  obtain ⟨next, hnext, hlink, hkept⟩ := exists_next (s := s') (e := e') hlinked
    (fun y hy => hshows' y (by simp [hy])) rfl fun y hy => h.fresh_behind ht hfresh hy
  have hfilled : s'.filled e' values x.block.next = { s with
      queue := next.map (·.ref) ++ rest.map (·.ref)
      visited := x.block.id :: s.visited
      buffer := values } := by
    rw [filled, hkept]
  rw [hfilled]
  exact ⟨rfl, _, _, _, hvalues ▸ h.visit ht hpast hpassed hfresh rfl hnext hlink⟩

end Scan

namespace Engine

variable [Wire K] [Wire V] [LE K] [DecidableLE K]

/-! ### Steps of a scan -/

variable {e e' : Engine K V} {m n fuel : Nat} {state : MapState K} {limit : Option Nat}
  {first last : Option K} {past : Set (Entries K V)} {seen : List K} {s s' : Scan K V}

/-- A new scan over a range with a bound has given nothing. -/
theorem tracked_scan [Std.IsLinearOrder K] (hs : e.AllHold limit) (hm : e.maps[m]? = some state)
    (hbound : ¬ (first.isNone ∧ last.isNone)) : ∃ s, scan m first last e = .ok s ∧
      s.Tracked first last {e.contents m} (e.layout m) [] := by
  have ht := (hs.holds m state hm).tiled
  refine ⟨_, scan_eq hs hm hbound, [],
    ((e.layout m).filter fun x => x.block.overlaps first last).map Stretch.mark, none,
    ⟨rfl, rfl⟩, rfl, by rw [List.map_map]; rfl, ?_, by simp, by simp, ?_, List.Pairwise.nil,
    by simp, by simp, ?_⟩
  · intro μ hμ
    obtain ⟨x, hx, rfl⟩ := List.mem_map.1 hμ
    exact Layout.mem_marks (List.mem_of_mem_filter hx)
  · have hascending := List.pairwise_map.1 ht.ascending
    exact List.pairwise_map.2 ((hascending.imp fun hp _ => hp.1).sublist List.filter_sublist)
  · intro key hrange hlasting
    obtain ⟨x, hx, hkey⟩ := Layout.exists_value?_isSome (hlasting _ rfl)
    obtain ⟨value, hvalue⟩ := Option.isSome_iff_exists.1 hkey
    have hinBounds := ht.blocks x hx
    obtain ⟨hmin, hmax⟩ := hinBounds.within _ (Entries.mem_of_value?_eq_some hvalue)
    refine Or.inr ⟨x.mark, List.mem_map_of_mem (List.mem_filter.2 ⟨hx, ?_⟩), by simp, x, hx,
      .refl, hkey⟩
    exact Block.overlaps_iff.2 ⟨fun k hk => Std.le_trans (hrange.1 k hk) hmax,
      fun k hk => Std.le_trans hmin (hrange.2 k hk)⟩

variable [Lossless K] [Lossless V] [Std.IsLinearOrder K]

/-- A scan yields a value or that there are no more, unless it is refused to read a block. -/
theorem nextWithin_tracked {keep : Scan K V → Engine K V → Engine K V}
    {value : Option (Except MapError V)} (hkeep : ∀ s e, Keeps limit e (keep s e))
    (hs : e.AllHold limit) (hw : e'.Within limit) (hm : e.maps[m]? = some state)
    (hpast : e.contents m ∈ past) (h : s.Tracked first last past (e.layout m) seen)
    (hfuel : ((e.layout m).filter fun x => decide (x.block.id ∉ s.visited)).length ≤ fuel)
    (hrun : nextWithin keep fuel s e = (value, s', e')) :
    e'.Unread e m ∨ ∃ v seen', value = v.map .ok ∧
      s'.Tracked first last past (e.layout m) seen' ∧ Scan.Yields first last past seen v seen' := by
  -- every block that is read is one less to visit, so the fuel outlasts them
  induction fuel using Nat.strong_induction_on generalizing s e with
  | _ fuel ih =>
    obtain ⟨read, coming, reached, h⟩ := h
    have hh := hs.holds m state hm
    rcases nextWithin_cases hrun with ⟨v, buffer, hbuffer, rfl, rfl, rfl⟩ |
      ⟨hbuffer, hover, rfl, rfl, rfl⟩ |
      ⟨left, ref, s₁, r, e₁, hbuffer, rfl, hvisit, hvalues, hread⟩ <;> rw [h.buffer] at hbuffer
    · obtain ⟨entry, read, rfl, rfl, rfl⟩ := List.map_eq_cons_iff.1 hbuffer
      obtain ⟨htraces, hyields⟩ := h.give
      exact Or.inr ⟨some entry.2, _, rfl, ⟨_, _, _, htraces⟩, hyields⟩
    · obtain rfl := List.map_eq_nil_iff.1 hbuffer
      have hall : ∀ μ ∈ coming, μ.id ∈ s.visited := by
        rcases hover with rfl | hvisit
        · -- Without fuel every block of the map was visited.
          have hnone :=
            List.filter_eq_nil_iff.1 (List.eq_nil_of_length_eq_zero (Nat.le_zero.1 hfuel))
          intro μ hμ
          obtain ⟨x, hx, rfl⟩ := List.mem_map.1 (h.listed hμ)
          show x.block.id ∈ s.visited
          simpa using hnone x hx
        · rcases h.visit? hh.tiled hh.shows hpast with ⟨-, hall⟩ | ⟨x, -, s₁, hvisit', -⟩
          · exact hall
          · simp [hvisit] at hvisit'
      obtain ⟨htraces, hyields⟩ := h.finish hall
      exact Or.inr ⟨none, seen, rfl, ⟨_, _, _, htraces⟩, hyields⟩
    · obtain rfl := List.map_eq_nil_iff.1 hbuffer
      rcases h.visit? hh.tiled hh.shows hpast with ⟨hvisit', -⟩ |
        ⟨x, hx, s₁, hvisit', hfirst, hlast, hfresh, hgoes⟩ <;> rw [hvisit] at hvisit'
      · simp at hvisit'
      obtain ⟨rfl, rfl⟩ := Prod.mk.inj (Option.some.inj hvisit')
      have hk₀ := hkeep (s₁.reading x.ref) e
      rcases hread with ⟨cause, rfl, rfl, -, rfl⟩ | ⟨values, next, rfl, hrest⟩
      · obtain ⟨-, ⟨-, hunread⟩ | hr⟩ := valuesIn_of_mem hk₀ hs hw hm hx hvalues
        · exact Or.inl hunread
        · simp at hr
      · have hkrest : Keeps limit e₁ e' := keeps_nextWithin hkeep hrest
        have hw₁ := hw.of_suffix hkrest.events
        obtain ⟨hk, ⟨hr, -⟩ | hr⟩ := valuesIn_of_mem hk₀ hs hw₁ hm hx hvalues
        · simp at hr
        obtain ⟨hval, rfl⟩ := Prod.mk.inj (Except.ok.inj hr)
        rw [hfirst, hlast] at hval
        obtain ⟨hvisited, htracked⟩ := hgoes e₁ values
          (fun y hy => hk.shows hw₁ hs.roomy (hh.shows y hy)) hval
        have hlayout := hk.layout hw₁ hs m
        have hcontents : e₁.contents m = e.contents m := congrArg _ hlayout
        have hless : ((e₁.layout m).filter fun y => decide (y.block.id ∉
            (s₁.filled e₁ values x.block.next).visited)).length ≤ left := by
          have hlt := Layout.length_fresh_lt hx hfresh
          rw [hlayout, hvisited]
          omega
        rcases ih left left.lt_succ_self (hk.allHold hw₁ hs) (hk.maps ▸ hm) (hcontents ▸ hpast)
          (hlayout ▸ htracked) hless hrest with hunread | hyields
        · exact Or.inl (hunread.of_keeps hk hw₁ hs)
        · rw [hlayout] at hyields
          exact Or.inr hyields

/-- The scan of a number goes through a map that changes, and has given the values of the keys
`seen`. -/
def Traces (e : Engine K V) (n m : Nat) (first last : Option K) (past : Set (Entries K V))
    (seen : List K) : Prop :=
  ∃ s, e.scans[n]? = some s ∧ s.Tracked first last past (e.layout m) seen

omit [Lossless K] [Lossless V] [Std.IsLinearOrder K] in
theorem Traces.mono {past' : Set (Entries K V)} (h : e.Traces n m first last past seen)
    (hpast : past ⊆ past') (hnew : e.contents m ∈ past') : e.Traces n m first last past' seen := by
  obtain ⟨s, hget, read, coming, reached, htraces⟩ := h
  exact ⟨s, hget, read, coming, reached, htraces.grow (.refl _) hpast hnew⟩

/-- What comes of asking an open scan for a value. -/
theorem Traces.next {value : Option (Except MapError V)} (h : e.Traces n m first last past seen)
    (hs : e.AllHold limit) (hw : e'.Within limit) (hm : e.maps[m]? = some state)
    (hpast : e.contents m ∈ past) (hrun : e.next n = (value, e')) :
    e'.Unread e m ∨ ∃ v seen', value = v.map .ok ∧
      e'.Traces n m first last past seen' ∧ Scan.Yields first last past seen v seen' := by
  obtain ⟨s, hget, htracked⟩ := h
  have hh := hs.holds m state hm
  have hlength := length_layout_le hh.tiled fun x hx => (hh.shows x hx).lt_length
  have hfuel := (List.length_filter_le (fun x : Stretch K V => decide (x.block.id ∉ s.visited))
    (e.layout m)).trans hlength
  have hscans := (next_frame n e).2.1
  rw [hrun] at hscans
  have hlayout := (keeps_next hrun : Keeps limit e e').layout hw hs m
  simp only [Engine.next, hget] at hrun
  rcases hnext : nextWithin (setScan n) e.blocks.length s e with ⟨v, s', e₁⟩
  rw [hnext] at hrun
  obtain ⟨rfl, rfl⟩ := Prod.mk.inj hrun
  have hlt : n < e₁.scans.length := by
    rw [setScan, List.length_set] at hscans
    exact hscans ▸ (List.getElem?_eq_some_iff.1 hget).1
  have hset : (e₁.setScan n s').scans[n]? = some s' := List.getElem?_set_self hlt
  have hw₁ : e₁.Within limit := hw
  rcases nextWithin_tracked (fun _ _ => keeps_setScan n _) hs hw₁ hm hpast htracked hfuel hnext with
    hunread | ⟨v, seen', hv, htracked', hyields⟩
  · exact Or.inl hunread
  · refine Or.inr ⟨v, seen', hv, ?_, hyields⟩
    rw [Traces, hlayout]
    exact ⟨s', hset, htracked'⟩

/-! ### Requests between the steps of a scan -/

variable [Sized K] [Sized V] {q : Request K V} {a : Answer K V} {past' : Set (Entries K V)}

/-- Other requests disturb no open scan, unless they clear or drop its map. -/
theorem Traces.serve (h : e.Traces n m first last past seen) (hs : e.AllHold limit)
    (hw : e'.Within limit) (hserve : e.serve q = (a, e')) (hclear : q ≠ .clear m)
    (hdrop : q ≠ .drop m) (hclose : q ≠ .closeScan n) (hnext : q ≠ .next n) (hpast : past ⊆ past')
    (hnew : e'.contents m ∈ past') : e'.Traces n m first last past' seen := by
  obtain ⟨s, hget, read, coming, reached, htraces⟩ := h
  have hlt := (List.getElem?_eq_some_iff.1 hget).1
  have hframe := (serve_frame e q).2.2 n hlt hnext hclose
  rw [hserve] at hframe
  have hgrows := ((serve_spec hs hw hserve).shifts m).grows hclear hdrop
  exact ⟨s, hframe.trans hget, read, coming, reached, htraces.grow hgrows hpast hnew⟩

/-- A step of an open scan that is not refused to read gives a value or says that there are no
more. -/
theorem Traces.serve_next (h : e.Traces n m first last past seen) (hs : e.AllHold limit)
    (hw : e'.Within limit) (hm : m < e.maps.length) (hserve : e.serve (.next n) = (a, e'))
    (hun : Undisturbed e e') (hcontents : e.contents m ∈ past) (hpast : past ⊆ past') :
    ∃ v seen', a = .value v ∧ e'.Traces n m first last past' seen' ∧
      Scan.Yields first last past seen v seen' := by
  have hm' := List.getElem?_eq_getElem hm
  rcases hnext : e.next n with ⟨value, e₁⟩
  rw [Engine.serve_next, hnext] at hserve
  obtain ⟨rfl, rfl⟩ := Prod.mk.inj hserve
  have hnew : e₁.contents m ∈ past' := by
    rw [contents, (keeps_next hnext : Keeps limit e e₁).layout hw hs m]
    exact hpast hcontents
  rcases h.next hs hw hm' hcontents hnext with hunread | ⟨v, seen', rfl, htraces, hyields⟩
  · exact absurd hun.1 hunread.refusedLoads_lt.ne'
  · refine ⟨v, seen', ?_, htraces.mono hpast hnew, hyields⟩
    cases v <;> rfl

end Engine

end PagedMap
