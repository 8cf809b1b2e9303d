import Mathlib
import PagedMap.Proofs.Passes

/-!
# What only puts change

The skeleton of an engine (`Engine.skeleton`) tells of each block where it starts and which
successor it has.  Only a put adds blocks to the directory of a map and makes successors of them.
Any other request leaves the skeleton and the directories (`Engine.rigid_perform`), except that a
map may give up its blocks, which keep their places in the skeleton (`Engine.skeleton_give_up`).
-/

namespace PagedMap

variable {K V : Type}

namespace Engine

/-- Where each block starts, and which successor it has. -/
def skeleton (e : Engine K V) : List (Start K × Option BlockRef) :=
  e.blocks.map fun b => (b.start, b.next)

/-- The maps stay, and so do the starts and the successors of all blocks. -/
structure Rigid (e e' : Engine K V) : Prop where
  maps : e'.maps = e.maps
  skeleton : e'.skeleton = e.skeleton

variable {e e' e'' : Engine K V} {m : Nat} {state : MapState K} {ref : BlockRef} {b b' : Block K V}

theorem Rigid.refl (e : Engine K V) : Rigid e e := ⟨rfl, rfl⟩

theorem Rigid.trans (h : Rigid e e') (h' : Rigid e' e'') : Rigid e e'' :=
  ⟨h'.maps.trans h.maps, h'.skeleton.trans h.skeleton⟩

theorem getElem?_skeleton (e : Engine K V) (ref : BlockRef) :
    e.skeleton[ref]? = (e.blocks[ref]?).map fun b => (b.start, b.next) := List.getElem?_map

theorem skeleton_setBlock (ref : BlockRef) (b : Block K V) (e : Engine K V) :
    (e.setBlock ref b).skeleton = e.skeleton.set ref (b.start, b.next) := List.map_set

/-- Putting a block in the place of another does not matter if it has the same start and
successor. -/
theorem rigid_setBlock (hb : e.blocks[ref]? = some b) (hstart : b'.start = b.start)
    (hnext : b'.next = b.next) : Rigid e (e.setBlock ref b') := by
  refine ⟨rfl, ?_⟩
  have hget := getElem?_skeleton e ref
  rw [hb, Option.map_some] at hget
  obtain ⟨hlt, hself⟩ := List.getElem?_eq_some_iff.1 hget
  rw [skeleton_setBlock, hstart, hnext, ← hself, List.set_getElem_self]

/-- Blocks that move in and out of memory do not matter. -/
theorem Paging.rigid (h : Paging e e') : Rigid e e' := by
  refine ⟨h.maps, List.ext_getElem? fun ref => ?_⟩
  rw [getElem?_skeleton, getElem?_skeleton]
  cases hb : e.blocks[ref]? with
  | none =>
    have hnone : e'.blocks[ref]? = none := by
      rw [List.getElem?_eq_none_iff] at hb ⊢
      rwa [h.length]
    rw [hnone]
  | some b =>
    obtain ⟨b', hb', hsame⟩ := h.blocks ref b hb
    have hstart : b'.start = b.start := congrArg (·.start) hsame
    rw [hb', Option.map_some, Option.map_some, hstart, Block.next_eq_of_frame hsame]

/-! ### Giving up blocks -/

theorem skeleton_discard (e : Engine K V) (ref : BlockRef) :
    (e.discard ref).skeleton = e.skeleton := by
  cases hb : e.blocks[ref]? with
  | none => rw [discard, hb]
  | some b => exact (paging_discard hb).rigid.skeleton

theorem skeleton_release (e : Engine K V) (ref : BlockRef) :
    (e.release ref).skeleton = e.skeleton := by
  refine List.ext_getElem? fun i => ?_
  rw [getElem?_skeleton, getElem?_skeleton, release, List.getElem?_modify]
  split <;> cases e.blocks[i]? <;> rfl

theorem skeleton_foldl {f : Engine K V → BlockRef → Engine K V}
    (hf : ∀ e ref, (f e ref).skeleton = e.skeleton) (refs : List BlockRef) (e : Engine K V) :
    (refs.foldl f e).skeleton = e.skeleton := by
  induction refs generalizing e with
  | nil => rfl
  | cons ref refs ih => exact (ih _).trans (hf e ref)

/-- A map that gives up its blocks leaves them where they are. -/
theorem skeleton_give_up (he : e' = e.clear m ∨ e' = e.drop m) : e'.skeleton = e.skeleton := by
  have hclear : (e.clear m).skeleton = e.skeleton := by
    unfold clear
    split
    · rfl
    · exact skeleton_foldl skeleton_discard _ e
  rcases he with rfl | rfl
  · exact hclear
  · unfold drop
    split
    · rfl
    · exact (skeleton_foldl skeleton_release _ _).trans hclear

/-! ### Passes -/

variable [Wire K] [Wire V] [LE K] [DecidableLE K]

variable [Sized K] [Sized V]

omit [Wire K] [Wire V] in
theorem start_erase (b : Block K V) (es : Entries K V) (key : K) :
    (b.erase es key).start = b.start ∧ (b.erase es key).next = b.next := by
  unfold Block.erase
  split <;> exact ⟨rfl, rfl⟩

theorem Pass.rigid {k : Scope} (h : Pass k e e') (hk : k ≠ .put) : Rigid e e' := by
  cases h with
  | read hb h => exact (paging_access hb h).rigid
  | persist h => exact (quiet_persist h).1.toPaging.rigid
  | unload h => exact (quiet_unload h).toPaging.rigid
  | record event => exact ⟨rfl, rfl⟩
  | policy policy p => exact ⟨rfl, rfl⟩
  | look scans => exact ⟨rfl, rfl⟩
  | plan faults => exact ⟨rfl, rfl⟩
  | erase _ hb hes key => exact rigid_setBlock hb (start_erase _ _ _).1 (start_erase _ _ _).2
  | insert hput => exact absurd hput hk
  | split hput => exact absurd hput hk
  | plant hput => exact absurd hput hk

/-- Whatever is done but for puts changes no directory and no successor. -/
theorem Passes.rigid {k : Scope} (h : Passes k e e') (hk : k ≠ .put) : Rigid e e' := by
  induction h with
  | refl => exact .refl e
  | tail _ hlast ih => exact ih.trans (hlast.rigid hk)

theorem rigid_perform {q : Request K V} (hq : q.staysIn = true) (hput : q.scope ≠ .put)
    (e : Engine K V) : Rigid e (e.perform q).2 := Passes.rigid (passes_perform hq e) hput

end Engine

end PagedMap
