import Mathlib
import PagedMap.Proofs.Serve

/-!
# Layouts that grow

As long as a map is neither cleared nor dropped, its blocks stay: none loses its reference, its
number or its start (`Stretch.mark`), and new ones are made by the first put or by splits.  A split
puts the new block between a block and its successor, so that the successors still lead wherever
they led (`Layout.Leads`), and they lead from a block to the entries that were moved away from it.

`Layout.Grows` says this of two layouts.  It holds of the layouts before and after every request
(`Layout.Shift.grows`).
-/

namespace PagedMap

variable {K V : Type}

/-- What does not change of a block. -/
structure Mark (K : Type) where
  ref : BlockRef
  id : Nat
  start : Start K

/-- What does not change of the block of a stretch. -/
def Stretch.mark (x : Stretch K V) : Mark K := ⟨x.ref, x.block.id, x.block.start⟩

namespace Layout

/-- What does not change of the blocks. -/
def marks (t : Layout K V) : List (Mark K) := t.map Stretch.mark

/-- The second block is the successor of the first. -/
def Successor (t : Layout K V) (a c : BlockRef) : Prop := ∃ x ∈ t, x.ref = a ∧ x.block.next = some c

/-- The successors lead from the first block to the second. -/
def Leads (t : Layout K V) : BlockRef → BlockRef → Prop := Relation.ReflTransGen t.Successor

/-- The blocks of `t` are still there in `t'`, their successors lead wherever they led, and they
lead from every block to the entries it had, unless these are gone. -/
structure Grows [LE K] [DecidableLE K] (t t' : Layout K V) : Prop where
  marks : t.marks ⊆ t'.marks
  successor : ∀ a c, t.Successor a c → t'.Leads a c
  kept : ∀ x ∈ t, ∀ key, (Entries.value? x.block.held key).isSome = true →
    (Entries.value? t'.contents key).isSome = true →
      ∃ x' ∈ t', t'.Leads x.ref x'.ref ∧ (Entries.value? x'.block.held key).isSome = true

variable {t t' pre post : Layout K V} {s x y : Stretch K V} {b : Block K V} {a c : BlockRef}
  {ref : BlockRef} {lastId lastId' : Nat}

theorem mem_marks : x ∈ t → x.mark ∈ t.marks := List.mem_map_of_mem

theorem Successor.of_subset (h : t.Successor a c) (hsub : t ⊆ t') : t'.Successor a c := by
  obtain ⟨x, hx, hxa, hxc⟩ := h
  exact ⟨x, hsub hx, hxa, hxc⟩

/-- A block may be exchanged for one with the same successor. -/
theorem Successor.exchange (h : Successor (pre ++ s :: post) a c) (hnext : b.next = s.block.next) :
    Successor (pre ++ ⟨s.ref, b⟩ :: post) a c := by
  obtain ⟨x, hx, hxa, hxc⟩ := h
  rcases List.mem_append.1 hx with hx | hx
  · exact ⟨x, by simp [hx], hxa, hxc⟩
  rcases List.mem_cons.1 hx with rfl | hx
  · exact ⟨⟨x.ref, b⟩, by simp, hxa, hnext.trans hxc⟩
  · exact ⟨x, by simp [hx], hxa, hxc⟩

section Blocks

variable [LE K] [DecidableLE K]

theorem Tiled.eq_of_id (h : Tiled lastId t) (hx : x ∈ t) (hy : y ∈ t)
    (hid : x.block.id = y.block.id) : x = y := by
  have hnodup : (t.map fun x => x.block.id).Nodup :=
    List.pairwise_map.2 (h.apart.imp fun hp => hp.2.1)
  exact List.inj_on_of_nodup_map hnodup hx hy hid

theorem Tiled.eq_of_ref (h : Tiled lastId t) (hx : x ∈ t) (hy : y ∈ t) (href : x.ref = y.ref) :
    x = y := by
  have hnodup : (t.map fun x => x.ref).Nodup := List.pairwise_map.2 (h.apart.imp fun hp => hp.1)
  exact List.inj_on_of_nodup_map hnodup hx hy href

/-! ### What makes a layout grow -/

theorem Grows.refl (t : Layout K V) : Grows t t where
  marks := List.Subset.refl _
  successor _ _ h := .single h
  kept x hx _ hkey _ := ⟨x, hx, .refl, hkey⟩

theorem Grows.leads (h : Grows t t') (hac : t.Leads a c) : t'.Leads a c := by
  induction hac with
  | refl => exact .refl
  | tail _ hlink ih => exact ih.trans (h.successor _ _ hlink)

/-- A block may be exchanged for one that keeps its entries, unless they are gone. -/
theorem Grows.exchange (hid : b.id = s.block.id) (hstart : b.start = s.block.start)
    (hnext : b.next = s.block.next)
    (hkept : ∀ key, (Entries.value? s.block.held key).isSome = true →
      (Entries.value? (contents (pre ++ ⟨s.ref, b⟩ :: post)) key).isSome = true →
        (Entries.value? b.held key).isSome = true) :
    Grows (pre ++ s :: post) (pre ++ ⟨s.ref, b⟩ :: post) := by
  constructor
  · simp [Layout.marks, Stretch.mark, hid, hstart]
  · intro a c h
    exact .single (h.exchange hnext)
  · intro x hx key hkey hpresent
    rcases List.mem_append.1 hx with hx | hx
    · exact ⟨x, by simp [hx], .refl, hkey⟩
    rcases List.mem_cons.1 hx with rfl | hx
    · exact ⟨⟨x.ref, b⟩, by simp, .refl, hkept key hkey hpresent⟩
    · exact ⟨x, by simp [hx], .refl, hkey⟩

/-- A block may be exchanged for two that hold its entries, if they are linked as a split links
them. -/
theorem Grows.split {lower upper : Block K V} (hid : lower.id = s.block.id)
    (hstart : lower.start = s.block.start) (hlower : lower.next = some ref)
    (hupper : upper.next = s.block.next)
    (hheld : ∀ key, (Entries.value? s.block.held key).isSome = true →
      (Entries.value? (lower.held ++ upper.held) key).isSome = true) :
    Grows (pre ++ s :: post) (pre ++ ⟨s.ref, lower⟩ :: ⟨ref, upper⟩ :: post) := by
  have hup : Successor (pre ++ ⟨s.ref, lower⟩ :: ⟨ref, upper⟩ :: post) s.ref ref :=
    ⟨⟨s.ref, lower⟩, by simp, rfl, hlower⟩
  constructor
  · rw [Layout.marks, Layout.marks, List.map_append, List.map_append]
    refine List.append_subset.2 ⟨List.subset_append_left _ _, ?_⟩
    rintro μ hμ
    rcases List.mem_cons.1 hμ with rfl | hμ
    · simp [Stretch.mark, hid, hstart]
    · simp [List.mem_map.1 hμ]
  · rintro a c ⟨x, hx, rfl, hxc⟩
    rcases List.mem_append.1 hx with hx | hx
    · exact .single ⟨x, by simp [hx], rfl, hxc⟩
    rcases List.mem_cons.1 hx with rfl | hx
    · exact .head hup (.single ⟨⟨ref, upper⟩, by simp, rfl, hupper.trans hxc⟩)
    · exact .single ⟨x, by simp [hx], rfl, hxc⟩
  · intro x hx key hkey _
    rcases List.mem_append.1 hx with hx | hx
    · exact ⟨x, by simp [hx], .refl, hkey⟩
    rcases List.mem_cons.1 hx with rfl | hx
    · -- the key is in the part that is reached at once, or in the one that this leads to
      have hparts := hheld key hkey
      rw [Entries.value?_append, Option.isSome_or, Bool.or_eq_true] at hparts
      rcases hparts with hkey | hkey
      · exact ⟨⟨x.ref, lower⟩, by simp, .refl, hkey⟩
      · exact ⟨⟨ref, upper⟩, by simp, .single hup, hkey⟩
    · exact ⟨x, by simp [hx], .refl, hkey⟩

end Blocks

/-! ### Requests -/

variable [LE K] [DecidableLE K] [Std.IsLinearOrder K] [Sized K] [Sized V] {home : Home} {key : K}
  {value : V}

theorem Put.grows (h : Put home ref key value lastId t t' lastId') : Grows t t' := by
  have hinsert (b : Block K V) (k : K) (hk : (Entries.value? b.held k).isSome = true) :
      (Entries.value? (b.insert b.held key value).held k).isSome = true := by
    rw [Block.held_insert, Entries.value?_insert]
    split
    · rfl
    · exact hk
  cases h with
  | plant hkey =>
    constructor
    · exact List.subset_cons_self _ _
    · intro a c h
      exact .single (h.of_subset (List.subset_cons_self _ _))
    · intro x hx k hk _
      exact ⟨x, List.mem_cons_of_mem _ hx, .refl, hk⟩
  | @grow pre post s b hs hpost hb hfits =>
    subst hb
    exact .exchange rfl rfl rfl fun k hk _ => hinsert s.block k hk
  | @split pre post s b lower upper hs hpost hb hover hsplit =>
    subst hb
    have happ := Block.held_append_held hsplit
    obtain ⟨front, back, total, -, _, _, _, _, -, -, -, -, rfl, rfl⟩ := Block.split?_eq_some hsplit
    refine .split rfl rfl rfl rfl fun k hk => ?_
    rw [happ]
    exact hinsert s.block k hk

theorem Removal.grows (h : Removal key t t') (ht : Tiled lastId t) : Grows t t' := by
  have hcontents := h.contents ht
  cases h with
  | none hkey => exact .refl t
  | @one pre post s hs =>
    obtain ⟨hstart, hid, hnext, -⟩ := erase_frame s.block s.block.held key
    refine .exchange hid hstart hnext fun k hk hpresent => ?_
    rw [hcontents, Entries.value?_erase] at hpresent
    rw [Block.held_erase rfl, Entries.value?_erase]
    split at hpresent
    · simp at hpresent
    · rename_i hne
      rw [if_neg hne]
      exact hk

/-- Unless a map is cleared or dropped, its layout grows. -/
theorem Shift.grows {q : Request K V} {m : Nat} {home? : Option Home} (h : Shift q m home? t t')
    (hclear : q ≠ .clear m) (hdrop : q ≠ .drop m) : Grows t t' := by
  cases h with
  | stay => exact .refl t
  | put _ _ _ _ _ _ hput => exact hput.grows
  | remove _ ht hremoval => exact hremoval.grows ht
  | clear hq =>
    rcases hq with hq | hq
    · exact absurd hq hclear
    · exact absurd hq hdrop

end Layout

end PagedMap
