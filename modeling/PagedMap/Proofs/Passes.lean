import Mathlib
import PagedMap.Proofs.Calls
import PagedMap.Proofs.Moves

/-!
# What every part of a request keeps

The moves that a request is made of (`Engine.Move`), without their deeds, are its passes
(`Engine.Pass`).  A pass needs nothing of the engine but the block that it works on, and it says
what exactly becomes of this block.  Whatever is requested, unless a map is made or gives up its
blocks, is a sequence of such passes, whether it succeeds or fails (`Engine.passes_serve`).  Only
removals and puts change entries, and only puts split blocks and list new ones (`Scope`).

So what every pass keeps is true in the middle of a request as well, for example whenever a policy
makes a block leave memory.
-/

namespace PagedMap

variable {K V : Type}

/-- What a request may change: nothing but what is in memory and on pages, or the entries of the
blocks that there are, or the blocks of a map as well. -/
inductive Scope where
  | paging
  | removal
  | put
  deriving DecidableEq

/-- What a request may change. -/
def Request.scope : Request K V → Scope
  | put .. => .put
  | remove .. => .removal
  | _ => .paging

/-- What may change where this is done to entries. -/
def Edit.scope : Edit K V → Scope
  | keep => .paging
  | erase _ => .removal
  | insert .. => .put

theorem Request.scope_edit (q : Request K V) : q.edit.scope = q.scope := by
  cases q <;> rfl

namespace Engine

variable [Wire K] [Wire V] [LE K] [DecidableLE K] [Sized K] [Sized V]

/-- One thing that is done on the way of a request of a scope. -/
inductive Pass (k : Scope) (e : Engine K V) : Engine K V → Prop
  | read {ref : BlockRef} {b : Block K V} {r : Except MapError (Entries K V)} {e' : Engine K V}
      (hb : e.blocks[ref]? = some b) (h : Act.run (access ref b) e = (r, e')) : Pass k e e'
  | persist {ref : BlockRef} {r : Except MapError Unit} {e' : Engine K V}
      (h : Act.run (persist ref) e = (r, e')) : Pass k e e'
  | unload {ref : BlockRef} {page : Nat} {r : Except MapError Bool} {e' : Engine K V}
      (h : Act.run (unload ref page) e = (r, e')) : Pass k e e'
  | record (event : Event K V) : Pass k e (e.record event)
  | policy (policy : Nat) (p : Policy BlockRef) : Pass k e (e.setPolicy policy p)
  | look (scans : List (Scan K V)) : Pass k e { e with scans }
  | plan (faults : Faults) : Pass k e (e.plan 0 faults)
  | erase {ref : BlockRef} {b : Block K V} {es : Entries K V} (hk : k ≠ .paging)
      (hb : e.blocks[ref]? = some b) (hes : b.entries = some es) (key : K) :
      Pass k e (e.setBlock ref (b.erase es key))
  | insert {ref : BlockRef} {b : Block K V} {es : Entries K V} (hk : k = .put)
      (hb : e.blocks[ref]? = some b) (hes : b.entries = some es) (key : K) (value : V) :
      Pass k e (e.setBlock ref (b.insert es key value))
  | split {m : Nat} {ref : BlockRef} {b : Block K V} (hk : k = .put) (hl : e.Lists m ref b)
      (hdirty : b.dirty = true) : Pass k e (split m ref b e).2
  | plant {m : Nat} {state : MapState K} (hk : k = .put) (hm : e.maps[m]? = some state)
      (key : K) (value : V) : Pass k e (e.enlist m state
        (.ofEntry state.home key value (state.home.weight (key, value))) state.lastId)

/-- What is done to entries on the way of a request: a block loses one or takes one, or is split, or
a map gets its first block. -/
inductive Alters (e : Engine K V) : Engine K V → Prop
  | erase {ref : BlockRef} {b : Block K V} {es : Entries K V} (hb : e.blocks[ref]? = some b)
      (hes : b.entries = some es) (key : K) : Alters e (e.setBlock ref (b.erase es key))
  | insert {ref : BlockRef} {b : Block K V} {es : Entries K V} (hb : e.blocks[ref]? = some b)
      (hes : b.entries = some es) (key : K) (value : V) :
      Alters e (e.setBlock ref (b.insert es key value))
  | split {m : Nat} {ref : BlockRef} {b : Block K V} (hl : e.Lists m ref b)
      (hdirty : b.dirty = true) : Alters e (split m ref b e).2
  | plant {m : Nat} {state : MapState K} (hm : e.maps[m]? = some state) (key : K) (value : V) :
      Alters e (e.enlist m state
        (.ofEntry state.home key value (state.home.weight (key, value))) state.lastId)

/-- Things that are done one after the other. -/
abbrev Passes (k : Scope) : Engine K V → Engine K V → Prop := Relation.ReflTransGen (Pass k)

variable {k : Edit K V} {e e' : Engine K V}

/-- A pass leaves the entries of blocks to themselves, or does something to them. -/
theorem Pass.paging_or_alters {k : Scope} (h : Pass k e e') :
    Pass .paging e e' ∨ k ≠ .paging ∧ Alters e e' := by
  cases h with
  | read hb h => exact Or.inl (.read hb h)
  | persist h => exact Or.inl (.persist h)
  | unload h => exact Or.inl (.unload h)
  | record event => exact Or.inl (.record event)
  | policy policy p => exact Or.inl (.policy policy p)
  | look scans => exact Or.inl (.look scans)
  | plan faults => exact Or.inl (.plan faults)
  | erase hk hb hes key => exact Or.inr ⟨hk, .erase hb hes key⟩
  | insert hk hb hes key value => exact Or.inr ⟨hk ▸ Scope.noConfusion, .insert hb hes key value⟩
  | split hk hl hdirty => exact Or.inr ⟨hk ▸ Scope.noConfusion, .split hl hdirty⟩
  | plant hk hm key value => exact Or.inr ⟨hk ▸ Scope.noConfusion, .plant hm key value⟩

/-! ### Requests -/

theorem Move.pass {ds : List (Deed K V)} (h : Move k e ds e') : Pass k.scope e e' := by
  cases h with
  | read hb h => exact .read hb h
  | persist h => exact .persist h
  | unload h => exact .unload h
  | record event _ => exact .record event
  | policy policy p => exact .policy policy p
  | look scans => exact .look scans
  | plan faults => exact .plan faults
  | erase hk hb hes _ => exact .erase (hk ▸ Scope.noConfusion) hb hes _
  | insert hk hb hes => exact .insert (hk ▸ rfl) hb hes _ _
  | split hk hl hdirty _ _ => exact .split (hk ▸ rfl) hl hdirty
  | plant hk hm => exact .plant (hk ▸ rfl) hm _ _

theorem Led.passes (h : Led k e e') : Passes k.scope e e' := by
  obtain ⟨ds, hmoves⟩ := h
  induction hmoves with
  | refl e => exact .refl
  | head hmove _ ih => exact ih.head hmove.pass

theorem passes_perform {q : Request K V} (hq : q.staysIn = true) (e : Engine K V) :
    Passes q.scope e (e.perform q).2 :=
  q.scope_edit ▸ (led_perform hq e (editOf_cases q e)).passes

/-- Whatever comes of a request, it is made of passes, unless it makes a map or makes one give up
its blocks. -/
theorem passes_serve {q : Request K V} (hq : q.staysIn = true) (e : Engine K V) :
    Passes q.scope e (e.serve q).2 :=
  q.scope_edit ▸ (led_serve hq e (editOf_cases q e)).passes

end Engine

end PagedMap
