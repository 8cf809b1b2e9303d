import Mathlib
import PagedMap.Proofs.Layout

/-!
# Changes of a layout

What the requests make of a layout, apart from where the entries are.

* `Layout.Put` says what a put makes of it: a first block is planted, the block that takes the key
  grows, or it grows and is split.  A put keeps the layout tiled (`Put.tiled`), stores the entry in
  the contents (`Put.contents`), and no block has another excess than one before or none
  (`Put.excess`).
* At most one block covers a key (`Tiled.not_covers`).  `Layout.Removal` says that a removal changes
  that block and no other; it removes the entry (`Removal.contents`) and keeps the excess
  (`Removal.excess`).
-/

namespace PagedMap.Layout

variable {K V : Type} [LE K] [DecidableLE K]

/-- What storing an entry makes of a layout and of the highest number in it.  `ref` is the reference
of a block that may come to be. -/
inductive Put [Sized K] [Sized V] (home : Home) (ref : BlockRef) (key : K) (value : V)
    (lastId : Nat) : Layout K V → Layout K V → Nat → Prop
  /-- No block takes the key, and a first block is made. -/
  | plant {t : Layout K V} (h : ∀ s ∈ t, s.block.start.reaches key = false) :
      Put home ref key value lastId t
        (⟨ref, .ofEntry home key value (home.weight (key, value))⟩ :: t) lastId
  /-- The block that takes the key keeps within its budget, or has too few entries to be split. -/
  | grow {pre post : Layout K V} {s : Stretch K V} {b : Block K V}
      (hs : s.block.start.reaches key = true)
      (hpost : ∀ n ∈ post, n.block.start.reaches key = false)
      (hb : b = s.block.insert s.block.held key value)
      (hfits : b.home.budget < b.size → b.split? (lastId + 1) ref = none) :
      Put home ref key value lastId (pre ++ s :: post) (pre ++ ⟨s.ref, b⟩ :: post) lastId
  /-- The block that takes the key outgrows its budget and is split. -/
  | split {pre post : Layout K V} {s : Stretch K V} {b lower upper : Block K V}
      (hs : s.block.start.reaches key = true)
      (hpost : ∀ n ∈ post, n.block.start.reaches key = false)
      (hb : b = s.block.insert s.block.held key value)
      (hover : b.home.budget < b.size)
      (hsplit : b.split? (lastId + 1) ref = some (lower, upper)) :
      Put home ref key value lastId (pre ++ s :: post)
        (pre ++ ⟨s.ref, lower⟩ :: ⟨ref, upper⟩ :: post) (lastId + 1)

variable {home : Home} {ref : BlockRef} {lastId lastId' : Nat} {t t' pre post : Layout K V}
  {s : Stretch K V} {key : K} {value : V}

/-! ### The block that takes a key -/

/-- A block that starts after a key does so at a greater key. -/
theorem exists_start_of_not_reaches (h : s.block.start.reaches key = false) :
    ∃ k ∈ s.block.start.key?, ¬ k ≤ key := by
  cases hstart : s.block.start with
  | head => simp [hstart, Start.reaches, Start.key?] at h
  | «at» k i => exact ⟨k, rfl, by simpa [hstart, Start.reaches, Start.key?] using h⟩

section

variable [Std.IsLinearOrder K]

theorem lt_of_not_reaches (hs : s.block.InBounds) (h : s.block.start.reaches key = false) :
    ∀ e ∈ s.block.held, ¬ e.1 ≤ key := by
  intro e he
  obtain ⟨k, hk, hlt⟩ := exists_start_of_not_reaches h
  have := Block.reaches_iff.1 hs.reaches k hk
  have := hs.within e he
  grind

theorem Tiled.value?_eq_none (h : Tiled lastId t)
    (hkey : ∀ s ∈ t, s.block.start.reaches key = false) :
    Entries.value? t.contents key = none := by
  refine Entries.value?_eq_none fun e he hle => ?_
  obtain ⟨s, hs, he⟩ := List.mem_flatMap.1 he
  exact absurd hle (lt_of_not_reaches (h.blocks s hs) (hkey s hs) e he)

/-- The value that a put replaces is the one stored in the block that takes the key. -/
theorem Tiled.value?_of_reaches (h : Tiled lastId (pre ++ s :: post))
    (hs : s.block.start.reaches key = true)
    (hpost : ∀ n ∈ post, n.block.start.reaches key = false) :
    Entries.value? (contents (pre ++ s :: post)) key = Entries.value? s.block.held key := by
  rw [contents_append, contents_cons, Entries.value?_append_right (h.lt_of_mem_left hs),
    Entries.value?_append_left (h.gt_of_mem_right hpost)]

theorem Tiled.insert_contents (h : Tiled lastId (pre ++ s :: post))
    (hs : s.block.start.reaches key = true)
    (hpost : ∀ n ∈ post, n.block.start.reaches key = false) :
    Entries.insert key value (contents (pre ++ s :: post)) =
      contents pre ++ (Entries.insert key value s.block.held ++ contents post) := by
  rw [contents_append, contents_cons, Entries.insert_append_right (h.lt_of_mem_left hs),
    Entries.insert_append_left (h.gt_of_mem_right hpost)]

/-- A first block may be made if no block takes the key. -/
theorem Tiled.plant (h : Tiled lastId t) (hkey : ∀ s ∈ t, s.block.start.reaches key = false)
    (href : ∀ s ∈ t, s.ref ≠ ref) (size : Nat) :
    Tiled lastId (⟨ref, .ofEntry home key value size⟩ :: t) := by
  refine ⟨?_, ?_, List.pairwise_cons.2 ⟨fun s hs => ?_, h.apart⟩, by simp [Block.ofEntry], h.linked⟩
  · rintro s hs
    rcases List.mem_cons.1 hs with rfl | hs
    · exact Block.inBounds_ofEntry home size
    · exact h.blocks s hs
  · rintro s hs
    rcases List.mem_cons.1 hs with rfl | hs
    · exact Nat.zero_le _
    · exact h.ids s hs
  · obtain ⟨k, hk, hlt⟩ := exists_start_of_not_reaches (hkey s hs)
    refine ⟨(href s hs).symm, ?_, k, hk, hlt⟩
    rcases (h.blocks s hs).start_eq with ⟨hstart, -⟩ | ⟨-, -, hid⟩
    · simp [hstart, Start.key?] at hk
    · exact hid.symm

end

/-! ### The block that covers a key -/

section

variable [Std.IsLinearOrder K]

theorem Tiled.reaches_of_covers (h : Tiled lastId (pre ++ s :: post)) (hs : s.block.covers key) :
    s.block.start.reaches key = true := by
  have hmin := (Block.covers_iff.1 hs).1
  have hstart := Block.reaches_iff.1 (h.blocks s (by simp)).reaches
  exact Block.reaches_iff.2 fun k hk => Std.le_trans (hstart k hk) hmin

theorem Tiled.not_reaches_of_covers (h : Tiled lastId (pre ++ s :: post))
    (hs : s.block.covers key) : ∀ n ∈ post, n.block.start.reaches key = false := by
  intro n hn
  obtain ⟨-, -, k, hk, hlt⟩ := (List.pairwise_cons.1 (List.pairwise_append.1 h.apart).2.1).1 n hn
  have hmax := (Block.covers_iff.1 hs).2
  rw [Bool.eq_false_iff]
  intro hreach
  have := Block.reaches_iff.1 hreach k hk
  grind

theorem Tiled.not_covers (h : Tiled lastId (pre ++ s :: post)) (hs : s.block.covers key) :
    (∀ x ∈ pre, x.block.covers key = false) ∧ ∀ n ∈ post, n.block.covers key = false := by
  obtain ⟨-, hrest, hcross⟩ := List.pairwise_append.1 h.apart
  have hpost := (List.pairwise_cons.1 hrest).1
  obtain ⟨hmin, hmax⟩ := Block.covers_iff.1 hs
  refine ⟨fun x hx => ?_, fun n hn => ?_⟩ <;> rw [Bool.eq_false_iff] <;> intro hc
  · have hlt := (hcross x hx s (by simp)).lt (h.blocks s (by simp))
    have := (Block.covers_iff.1 hc).2
    grind
  · have hlt := (hpost n hn).lt (h.blocks n (by simp [hn]))
    have := (Block.covers_iff.1 hc).1
    grind

/-- A key that no block covers is not among the keys of the contents. -/
theorem Tiled.ne_of_not_covers (h : Tiled lastId t)
    (hkey : ∀ s ∈ t, s.block.covers key = false) : ∀ e ∈ t.contents, e.1 ≤ key → ¬ key ≤ e.1 := by
  intro e he hle hge
  obtain ⟨s, hs, he⟩ := List.mem_flatMap.1 he
  obtain ⟨hmin, hmax⟩ := (h.blocks s hs).within e he
  have hcov : s.block.covers key = true :=
    Block.covers_iff.2 ⟨Std.le_trans hmin hle, Std.le_trans hge hmax⟩
  simp [hkey s hs] at hcov

theorem Tiled.value?_of_covers (h : Tiled lastId (pre ++ s :: post)) (hs : s.block.covers key) :
    Entries.value? (contents (pre ++ s :: post)) key = Entries.value? s.block.held key :=
  h.value?_of_reaches (h.reaches_of_covers hs) (h.not_reaches_of_covers hs)

theorem Tiled.erase_contents (h : Tiled lastId (pre ++ s :: post)) (hs : s.block.covers key) :
    Entries.erase (contents (pre ++ s :: post)) key =
      contents pre ++ (Entries.erase s.block.held key ++ contents post) := by
  have hpre : Entries.erase (contents pre) key = contents pre :=
    Entries.erase_eq_self fun e he _ => h.lt_of_mem_left (h.reaches_of_covers hs) e he
  have hpost : Entries.erase (contents post) key = contents post :=
    Entries.erase_eq_self fun e he hle =>
      absurd hle (h.gt_of_mem_right (h.not_reaches_of_covers hs) e he)
  rw [contents_append, contents_cons, Entries.erase_append, Entries.erase_append, hpre, hpost]

end

/-! ### Storing and removing -/

variable [Sized K] [Sized V]

/-- The bounds of a block that takes a key stay before the next blocks when the key comes in. -/
theorem Tiled.lt_of_insert (h : Tiled lastId (pre ++ s :: post))
    (hpost : ∀ n ∈ post, n.block.start.reaches key = false) :
    ∀ n ∈ post, ∀ k ∈ n.block.start.key?,
      ¬ k ≤ (s.block.insert s.block.held key value).maxKey := by
  intro n hn k hk
  obtain ⟨-, -, k', hk', hlt⟩ := (List.pairwise_cons.1 (List.pairwise_append.1 h.apart).2.1).1 n hn
  obtain ⟨k'', hk'', hlt'⟩ := exists_start_of_not_reaches (hpost n hn)
  obtain rfl := Option.mem_unique hk hk'
  obtain rfl := Option.mem_unique hk hk''
  have hmax : (s.block.insert s.block.held key value).maxKey =
      if key ≤ s.block.maxKey then s.block.maxKey else key := rfl
  rw [hmax]
  split <;> assumption

/-- A removal leaves all of a block but its entries, its size and whether it is on its page. -/
theorem erase_frame (b : Block K V) (es : Entries K V) (key : K) :
    (b.erase es key).start = b.start ∧ (b.erase es key).id = b.id ∧
      (b.erase es key).next = b.next ∧ (b.erase es key).maxKey = b.maxKey := by
  unfold Block.erase
  split <;> exact ⟨rfl, rfl, rfl, rfl⟩

/-- What removing the entry of a key makes of a layout. -/
inductive Removal (key : K) : Layout K V → Layout K V → Prop
  /-- No block covers the key. -/
  | none {t : Layout K V} (h : ∀ s ∈ t, s.block.covers key = false) : Removal key t t
  /-- The block that covers the key loses its entry, if it has one. -/
  | one {pre post : Layout K V} {s : Stretch K V} (h : s.block.covers key = true) :
      Removal key (pre ++ s :: post) (pre ++ ⟨s.ref, s.block.erase s.block.held key⟩ :: post)

theorem Tiled.erase (h : Tiled lastId (pre ++ s :: post)) :
    Tiled lastId (pre ++ ⟨s.ref, s.block.erase s.block.held key⟩ :: post) := by
  obtain ⟨hstart, hid, hnext, hmax⟩ := erase_frame s.block s.block.held key
  refine h.exchange (h.blocks s (by simp)).erase hstart hid hnext fun n hn k hk => ?_
  obtain ⟨-, -, k', hk', hlt⟩ := (List.pairwise_cons.1 (List.pairwise_append.1 h.apart).2.1).1 n hn
  obtain rfl := Option.mem_unique hk hk'
  rwa [hmax]

variable [Std.IsLinearOrder K]

theorem Put.tiled (h : Put home ref key value lastId t t' lastId') (ht : Tiled lastId t)
    (href : ∀ s ∈ t, s.ref ≠ ref) : Tiled lastId' t' := by
  cases h with
  | plant hkey => exact ht.plant hkey href _
  | @grow pre post s b hs hpost hb hfits =>
    subst hb
    exact ht.exchange ((ht.blocks s (by simp)).insert hs) rfl rfl rfl (ht.lt_of_insert hpost)
  | @split pre post s b lower upper hs hpost hb hover hsplit =>
    subst hb
    exact ht.exchange_split ((ht.blocks s (by simp)).insert hs) rfl rfl rfl
      (ht.lt_of_insert hpost) href hsplit

theorem Put.contents (h : Put home ref key value lastId t t' lastId') (ht : Tiled lastId t) :
    t'.contents = Entries.insert key value t.contents := by
  cases h with
  | @plant t hkey =>
    have hlt : ∀ e ∈ t.contents, ¬ e.1 ≤ key := fun e he => by
      obtain ⟨s, hs, he⟩ := List.mem_flatMap.1 he
      exact lt_of_not_reaches (ht.blocks s hs) (hkey s hs) e he
    have hinsert : Entries.insert key value ([] ++ t.contents) =
        Entries.insert key value [] ++ t.contents := Entries.insert_append_left hlt
    rw [contents_cons, Block.held_ofEntry]
    exact hinsert.symm
  | @grow pre post s b hs hpost hb hfits =>
    rw [ht.insert_contents hs hpost, contents_append, contents_cons, hb, Block.held_insert]
  | @split pre post s b lower upper hs hpost hb hover hsplit =>
    rw [ht.insert_contents hs hpost, contents_append, contents_cons, contents_cons,
      ← List.append_assoc (Block.held lower), Block.held_append_held hsplit, hb, Block.held_insert]

/-- What is true of 0 and of the excess of every block, none of which is negative, remains so after
a put. -/
theorem Put.excess {p : Int → Prop} (hzero : p 0) (hnonneg : ∀ c, p c → 0 ≤ c)
    (h : Put home ref key value lastId t t' lastId') (ht : Tiled lastId t)
    (hexcess : ∀ s ∈ t, p s.block.excess) : ∀ s ∈ t', p s.block.excess := by
  cases h with
  | plant hkey =>
    rw [List.forall_mem_cons]
    refine ⟨?_, hexcess⟩
    rw [Block.excess_ofEntry]
    exact hzero
  | @grow pre post s b hs hpost hb hfits =>
    have hsame : b.excess = s.block.excess :=
      hb ▸ Block.excess_insert (ht.blocks s (by simp)) (hnonneg _ (hexcess s (by simp)))
    rw [List.forall_mem_append, List.forall_mem_cons] at hexcess ⊢
    exact ⟨hexcess.1, hsame ▸ hexcess.2.1, hexcess.2.2⟩
  | @split pre post s b lower upper hs hpost hb hover hsplit =>
    have hsame : b.excess = s.block.excess :=
      hb ▸ Block.excess_insert (ht.blocks s (by simp)) (hnonneg _ (hexcess s (by simp)))
    rw [List.forall_mem_append, List.forall_mem_cons] at hexcess
    obtain ⟨hlower, hupper⟩ := Block.excess_split (hsame ▸ hnonneg _ hexcess.2.1) hsplit
    rw [List.forall_mem_append, List.forall_mem_cons, List.forall_mem_cons]
    exact ⟨hexcess.1, hlower.symm ▸ hzero, hupper ▸ hsame ▸ hexcess.2.1, hexcess.2.2⟩

theorem Removal.contents (h : Removal key t t') (ht : Tiled lastId t) :
    t'.contents = Entries.erase t.contents key := by
  cases h with
  | none hkey => exact (Entries.erase_eq_self (ht.ne_of_not_covers hkey)).symm
  | @one pre post s hs =>
    rw [ht.erase_contents hs, contents_append, contents_cons, Block.held_erase rfl]

/-- What is true of the excess of every block, none of which is negative, remains so after a
removal. -/
theorem Removal.excess {p : Int → Prop} (hnonneg : ∀ c, p c → 0 ≤ c) (h : Removal key t t')
    (ht : Tiled lastId t) (hexcess : ∀ s ∈ t, p s.block.excess) : ∀ s ∈ t', p s.block.excess := by
  cases h with
  | none hkey => exact hexcess
  | @one pre post s hs =>
    rw [List.forall_mem_append, List.forall_mem_cons] at hexcess ⊢
    refine ⟨hexcess.1, ?_, hexcess.2.2⟩
    rw [Block.excess_erase (ht.blocks s (by simp)) (hnonneg _ hexcess.2.1)]
    exact hexcess.2.1

end PagedMap.Layout
