import Mathlib
import PagedMap.Block
import PagedMap.Proofs.Entries

/-!
# Blocks in memory

What the operations on one block do, if its entries are in memory (`Block.held`).  A block is in its
bounds (`Block.InBounds`) if its entries are sorted and within them, and it starts at its least key
or before.  Storing, removing and splitting keep it so; a split hands over the upper entries and
makes both pairs of bounds tight (`split?_eq_some`).

The excess of a block is what its recorded size says beyond the weight of its entries
(`Block.excess`).  As long as it is not negative it does not change: storing and removing keep it,
and a split leaves all of it with the upper part.
-/

namespace PagedMap.Block

variable {K V : Type}

/-- The entries in memory. -/
def held (b : Block K V) : Entries K V := b.entries.getD []

/-- What the recorded size says beyond the weight of the entries. -/
def excess [Sized K] [Sized V] (b : Block K V) : Int :=
  b.size - (b.held.map b.home.weight).sum

/-- The entries are sorted and within the bounds, and the block starts where it may hold them. -/
structure InBounds [LE K] [DecidableLE K] (b : Block K V) : Prop where
  sorted : b.held.Sorted
  within : ∀ e ∈ b.held, b.minKey ≤ e.1 ∧ e.1 ≤ b.maxKey
  min_le_max : b.minKey ≤ b.maxKey
  reaches : b.start.reaches b.minKey = true
  start_eq : b.start = .head ∧ b.id = 0 ∨ ∃ k, b.start = .at k b.id ∧ b.id ≠ 0

variable {b lower upper : Block K V} {es : Entries K V} {key : K} {value : V}

theorem held_of_some (h : b.entries = some es) : b.held = es := by rw [held, h, Option.getD_some]

theorem size_eq_of_excess [Sized K] [Sized V] (h : b.excess = 0) :
    b.size = (b.held.map b.home.weight).sum := by
  unfold excess at h
  omega

section Bounds

variable [LE K] [DecidableLE K]

theorem reaches_iff {s : Start K} : s.reaches key = true ↔ ∀ k ∈ s.key?, k ≤ key := by
  cases h : s.key? <;> simp [Start.reaches, h]

theorem covers_iff : b.covers key = true ↔ b.minKey ≤ key ∧ key ≤ b.maxKey := by simp [covers]

theorem overlaps_iff {first last : Option K} : b.overlaps first last = true ↔
    (∀ k ∈ first, k ≤ b.maxKey) ∧ ∀ k ∈ last, b.minKey ≤ k := by
  cases first <;> cases last <;> simp [overlaps]

variable [Std.IsLinearOrder K]

theorem InBounds.between_eq_nil (hb : b.InBounds) {first last : Option K}
    (h : ¬ b.overlaps first last) : Entries.between b.held first last = [] := by
  rw [List.eq_nil_iff_forall_not_mem]
  intro e he
  obtain ⟨hmem, hfirst, hlast⟩ := Entries.mem_between.1 he
  obtain ⟨hmin, hmax⟩ := hb.within e hmem
  exact h (overlaps_iff.2 ⟨fun k hk => Std.le_trans (hfirst k hk) hmax,
    fun k hk => Std.le_trans hmin (hlast k hk)⟩)

end Bounds

/-! ### The first block -/

theorem held_ofEntry (home : Home) (size : Nat) :
    (ofEntry home key value size).held = [(key, value)] := rfl

theorem inBounds_ofEntry [LE K] [DecidableLE K] [Std.IsLinearOrder K] (home : Home) (size : Nat) :
    (ofEntry home key value size).InBounds := by
  refine ⟨List.pairwise_singleton .., ?_, Std.le_refl _, rfl, Or.inl ⟨rfl, rfl⟩⟩
  rintro e he
  obtain rfl := List.mem_singleton.1 he
  exact ⟨Std.le_refl _, Std.le_refl _⟩

theorem excess_ofEntry [Sized K] [Sized V] (home : Home) :
    (ofEntry home key value (home.weight (key, value))).excess = 0 := by
  simp [excess, ofEntry, held]

/-! ### Storing and removing -/

section Edit

variable [LE K] [DecidableLE K] [Sized K] [Sized V]

@[simp] theorem held_insert : (b.insert es key value).held = Entries.insert key value es := rfl

theorem held_erase (h : b.held = es) : (b.erase es key).held = Entries.erase es key := by
  unfold erase
  split
  · rfl
  · rename_i hnone
    rw [h, Entries.erase_of_value?_eq_none hnone]

theorem InBounds.erase (hb : b.InBounds) : (b.erase b.held key).InBounds := by
  have hheld : (b.erase b.held key).held = Entries.erase b.held key := held_erase rfl
  have hsame : (b.erase b.held key).minKey = b.minKey ∧ (b.erase b.held key).maxKey = b.maxKey ∧
      (b.erase b.held key).start = b.start ∧ (b.erase b.held key).id = b.id := by
    unfold Block.erase
    split <;> exact ⟨rfl, rfl, rfl, rfl⟩
  obtain ⟨hmin, hmax, hstart, hid⟩ := hsame
  refine ⟨?_, ?_, ?_, ?_, ?_⟩
  · rw [hheld]
    exact hb.sorted.erase
  · intro e he
    rw [hheld] at he
    rw [hmin, hmax]
    exact hb.within e (List.mem_of_mem_filter he)
  · rw [hmin, hmax]
    exact hb.min_le_max
  · rw [hmin, hstart]
    exact hb.reaches
  · rw [hstart, hid]
    exact hb.start_eq

variable [Std.IsLinearOrder K]

theorem InBounds.insert (hb : b.InBounds) (hkey : b.start.reaches key) :
    (b.insert b.held key value).InBounds := by
  have hmin : (b.insert b.held key value).minKey = if b.minKey ≤ key then b.minKey else key := rfl
  have hmax : (b.insert b.held key value).maxKey = if key ≤ b.maxKey then b.maxKey else key := rfl
  have hle := hb.min_le_max
  refine ⟨hb.sorted.insert, ?_, ?_, ?_, hb.start_eq⟩
  · intro e he
    rw [hmin, hmax]
    rcases Entries.mem_insert he with rfl | he
    · refine ⟨?_, ?_⟩ <;> split <;> grind
    · have := hb.within e he
      refine ⟨?_, ?_⟩ <;> split <;> grind
  · rw [hmin, hmax]
    split <;> split <;> grind
  · rw [hmin]
    split
    · exact hb.reaches
    · exact hkey

theorem excess_insert_of_sorted (hb : b.held.Sorted) (h : 0 ≤ b.excess) :
    (b.insert b.held key value).excess = b.excess := by
  have hsum : ((Entries.insert key value b.held).map b.home.weight).sum + _ = _ :=
    Entries.sum_insert b.home.weight hb
  have hsize : (b.insert b.held key value).size =
      b.sizeWithout key (Entries.value? b.held key) + b.home.weight (key, value) := rfl
  have hhome : (b.insert b.held key value).home = b.home := rfl
  unfold excess at h ⊢
  rw [held_insert, hsize, hhome]
  cases hval : Entries.value? b.held key with
  | none =>
    simp only [hval, Option.map_none, Option.getD_none] at hsum
    simp only [sizeWithout]
    omega
  | some old =>
    simp only [hval, Option.map_some, Option.getD_some] at hsum
    have hold := Entries.sum_erase b.home.weight hb hval
    simp only [sizeWithout]
    omega

theorem excess_insert (hb : b.InBounds) (h : 0 ≤ b.excess) :
    (b.insert b.held key value).excess = b.excess := excess_insert_of_sorted hb.sorted h

theorem excess_erase_of_sorted (hb : b.held.Sorted) (h : 0 ≤ b.excess) :
    (b.erase b.held key).excess = b.excess := by
  unfold Block.erase
  split
  · rename_i value hval
    have hsum := Entries.sum_erase b.home.weight hb hval
    unfold excess at h ⊢
    simp only [held, Option.getD_some, sizeWithout] at h hsum ⊢
    omega
  · rfl

theorem excess_erase (hb : b.InBounds) (h : 0 ≤ b.excess) :
    (b.erase b.held key).excess = b.excess := excess_erase_of_sorted hb.sorted h

end Edit

/-! ### Splitting -/

section Split

variable [Sized K] [Sized V] {id : Nat} {ref : BlockRef}

/-- What a split makes of a block. -/
theorem split?_eq_some (h : b.split? id ref = some (lower, upper)) :
    ∃ front back total, Entries.cut? b.home.weight (b.size / 2) b.held = some (front, back, total) ∧
      ∃ a c d f, front.head? = some a ∧ front.getLast? = some c ∧ back.head? = some d ∧
        back.getLast? = some f ∧
        lower = { b with
          minKey := a.1, maxKey := c.1, entries := some front, size := total, next := some ref } ∧
        upper = { b with
          start := .at d.1 id, id := id, minKey := d.1, maxKey := f.1, entries := some back,
          size := b.size - total, dirty := true, page := noPage, tracked := true } := by
  simp only [split?, Option.bind_eq_bind, Option.bind_eq_some_iff, Option.pure_def,
    Option.some.injEq, Prod.mk.injEq] at h
  obtain ⟨es, hes, ⟨front, back, total⟩, hcut, a, ha, c, hc, d, hd, f, hf, rfl, rfl⟩ := h
  refine ⟨front, back, total, ?_, a, c, d, f, ha, hc, hd, hf, rfl, rfl⟩
  rwa [held, hes]

/-- The upper part has the new number, and comes between the lower part and the successor. -/
theorem links_of_split? (h : b.split? id ref = some (lower, upper)) :
    lower.next = some ref ∧ upper.next = b.next ∧ upper.id = id := by
  obtain ⟨_, _, _, -, _, _, _, _, -, -, -, -, rfl, rfl⟩ := split?_eq_some h
  exact ⟨rfl, rfl, rfl⟩

theorem held_append_held (h : b.split? id ref = some (lower, upper)) :
    lower.held ++ upper.held = b.held := by
  obtain ⟨front, back, total, hcut, a, c, d, f, -, -, -, -, rfl, rfl⟩ := split?_eq_some h
  exact Entries.append_of_cut? hcut

theorem excess_split (hb : 0 ≤ b.excess) (h : b.split? id ref = some (lower, upper)) :
    lower.excess = 0 ∧ upper.excess = b.excess := by
  have happ := held_append_held h
  obtain ⟨front, back, total, hcut, a, c, d, f, -, -, -, -, rfl, rfl⟩ := split?_eq_some h
  have htotal := Entries.total_of_cut? hcut
  have hsum : (b.held.map b.home.weight).sum =
      (front.map b.home.weight).sum + (back.map b.home.weight).sum := by
    rw [← happ, ← List.sum_append, ← List.map_append]
    rfl
  unfold excess at hb ⊢
  rw [hsum] at hb ⊢
  simp only [held, Option.getD_some]
  omega

variable [LE K] [DecidableLE K] [Std.IsLinearOrder K]

/-- Both parts are in their bounds, and the upper one starts behind the lower one. -/
theorem InBounds.split (hb : b.InBounds) (hid : id ≠ 0)
    (h : b.split? id ref = some (lower, upper)) : lower.InBounds ∧ upper.InBounds ∧
      ∃ k, upper.start = .at k id ∧ ¬ k ≤ lower.maxKey ∧ upper.maxKey ≤ b.maxKey := by
  have happ := held_append_held h
  obtain ⟨front, back, total, -, a, c, d, f, ha, hc, hd, hf, rfl, rfl⟩ := split?_eq_some h
  simp only [held, Option.getD_some] at happ
  obtain ⟨hfront, hback, hcross⟩ :=
    Entries.sorted_append.1 (by simpa [← happ, held] using hb.sorted)
  have hwithin : ∀ e, e ∈ front ∨ e ∈ back → b.minKey ≤ e.1 ∧ e.1 ≤ b.maxKey := fun e he =>
    hb.within e (by rw [held, ← happ]; exact List.mem_append.2 he)
  have ham : a ∈ front := List.mem_of_head? ha
  have hcm : c ∈ front := List.mem_of_getLast? hc
  have hdm : d ∈ back := List.mem_of_head? hd
  have hfm : f ∈ back := List.mem_of_getLast? hf
  refine ⟨⟨hfront, fun e he => ⟨hfront.head_le ha he, hfront.le_getLast hc he⟩,
    hfront.head_le ha hcm, ?_, hb.start_eq⟩, ⟨hback, fun e he => ⟨hback.head_le hd he,
    hback.le_getLast hf he⟩, hback.head_le hd hfm, ?_, Or.inr ⟨d.1, rfl, hid⟩⟩, d.1, rfl,
    hcross c hcm d hdm, (hwithin f (Or.inr hfm)).2⟩
  · have hstart := reaches_iff.1 hb.reaches
    exact reaches_iff.2 fun k hk => Std.le_trans (hstart k hk) (hwithin a (Or.inl ham)).1
  · exact reaches_iff.2 fun k hk => by
      obtain rfl : d.1 = k := Option.some.inj hk
      exact Std.le_refl _

end Split

end PagedMap.Block
