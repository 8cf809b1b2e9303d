import Mathlib
import PagedMap.Proofs.Recovery

/-!
# Other overheads after a restart

The blocks that a map is restored to have the sizes that were recorded with the overhead of an
earlier map, and what is removed from them is charged with the overhead of this one.  Sizes do not
go below 0, so a larger overhead may bring the size of a block to 0 while entries are left in it,
and the next snapshot leaves the block out (`Session.contents_lost_by_larger_overhead`).

A snapshot that is restored at once brings back the blocks whose size is not 0, and so it brings
back all entries if and only if no block of size 0 has any.  This is so if no map was ever restored
from a snapshot of a map with a smaller overhead (`Session.boot_checkpoint_iff`).
-/

namespace PagedMap.Session

variable {K V : Type} [Wire K] [Wire V] [LE K] [DecidableLE K] [Std.IsLinearOrder K] [Sized K]
  [Sized V] [Lossless K] [Lossless V]

variable {limit : Option Nat} {m : Nat} {state : MapState K} {snapshot : Snapshot K}
  {policies : List (Policy BlockRef)} {store : Store K V} {volume : Volume}
  {before : List (Command K V)} {s₁ s₂ : Session K V}

/-- Let a map be in any state that a session comes to, with maps that were made and restored with
any overheads.  If a snapshot of it is taken and the map is restored from this snapshot, it has the
entries of the blocks whose size is not 0.  These are its contents if and only if no block of size 0
has an entry, and that is so if the map has an overhead for every entry and maps were restored from
snapshots of maps with at least their overhead only. -/
theorem boot_checkpoint_iff (hready : store.Ready limit volume)
    (hbefore : (start policies store volume).run before = s₁)
    (hm : s₁.engine.maps[m]? = some state)
    (hcheckpoint : (s₁.step (.request (.checkpoint m))).1 = .snapshot snapshot)
    (hboot : s₁.run [.request (.checkpoint m), .boot m s₁.saved.length] = s₂)
    (hw : s₂.engine.Within limit) :
    s₂.engine.contents m =
        Layout.contents ((s₁.engine.layout m).filter fun b => b.block.size ≠ 0) ∧
      (s₂.engine.contents m = s₁.engine.contents m ↔
        ∀ b ∈ s₁.engine.layout m, b.block.size = 0 → b.block.held = []) ∧
      ((start policies store volume).AdmitsAll before → 1 ≤ state.home.entryOverhead →
        s₂.engine.contents m = s₁.engine.contents m) := by
  set s := (s₁.step (.request (.checkpoint m))).2 with hs
  obtain rfl : (s.step (.boot m s₁.saved.length)).2 = s₂ := hboot
  have hw' : s.engine.Within limit := hw.of_suffix (suffix_step s _)
  have hw₁ : s₁.engine.Within limit := hw'.of_suffix (suffix_step s₁ _)
  have hs₁ : s₁.Documented limit := by
    subst hbefore
    exact (goes_run (documented_start hready) hw₁).documented
  have hm' : s.engine.maps[m]? = some state := by rw [hs, maps_checkpoint, hm]
  obtain ⟨x, hx, -, hdocuments⟩ := checkpoint_spec hs₁ hm hcheckpoint hw'
  obtain ⟨-, -, base, hlayout⟩ := boot_spec (goes_step hs₁ hw').documented hm' hx hdocuments
  have hiff := Layout.contents_revived_iff (t := s₁.engine.layout m) base state.home
  rw [← hlayout] at hiff
  refine ⟨?_, hiff, fun hadmits hoverhead => hiff.2 ?_⟩
  · rw [Engine.contents, hlayout, Layout.contents_revived]
    rfl
  · subst hbefore
    have hcovered := (covered_start policies store volume).run (documented_start hready) hadmits hw₁
    refine (hcovered.layouts m).held_eq_nil fun b hb => ?_
    rw [(hs₁.engine.holds m state hm).homes b hb]
    exact hoverhead

/-- A map with a smaller overhead is restored and loses a key. -/
theorem boot_checkpoint_smaller_overhead :
    let large : Sizing := { maxBlockSize := 4000, entryOverhead := 100, blockOverhead := 0 }
    let small : Sizing := { maxBlockSize := 400, entryOverhead := 10, blockOverhead := 8 }
    let before : List (Command (Shape.uint .w64).Datum Shape.string.Datum) :=
      [.request (.make large 0), .request (.put 0 1#64 "a"), .request (.put 0 2#64 "b"),
        .request (.checkpoint 0), .request (.make small 0), .boot 1 0, .request (.remove 1 1#64)]
    let s₁ := (start [.clock (.empty 8)] .inMemory {}).run before
    let s₂ := s₁.run [.request (.checkpoint 1), .boot 1 1]
    let es : Entries (Shape.uint .w64).Datum Shape.string.Datum := [(2#64, "b")]
    s₂.engine.contents 1 = es := by
  intro large small before s₁ s₂ es
  have hfirst : ∃ state ∈ s₁.engine.maps[1]?, 1 ≤ state.home.entryOverhead := by decide +kernel
  have hsaved : s₁.saved.length = 1 := by decide +kernel
  have hcheckpoint :
      (s₁.step (.request (.checkpoint 1))).1 = .snapshot ⟨[⟨1#64, 2#64, 0, 199, 2⟩]⟩ := by
    decide +kernel
  have hadmits : (start [.clock (.empty 8)] .inMemory {}).AdmitsAll before := by decide +kernel
  have hcontents : s₁.engine.contents 1 = es := by decide +kernel
  have hrun : (start [.clock (.empty 8)] .inMemory {}).run before = s₁ := rfl
  have hboot : s₁.run [.request (.checkpoint 1), .boot 1 s₁.saved.length] = s₂ := by rw [hsaved]
  clear_value s₁ s₂
  obtain ⟨state, hm, hoverhead⟩ := hfirst
  have hready : (Store.inMemory (K := (Shape.uint .w64).Datum) (V := Shape.string.Datum)).Ready none
    {} := trivial
  have hw : s₂.engine.Within none := Engine.within_none _
  exact ((boot_checkpoint_iff hready hrun hm hcheckpoint hboot hw).2.2 hadmits hoverhead).trans
    hcontents

/-- A map with a larger overhead is restored, and a key is removed: the snapshot of the map misses
the other key. -/
theorem contents_lost_by_larger_overhead :
    let small : Sizing := { maxBlockSize := 4000, entryOverhead := 10, blockOverhead := 0 }
    let large : Sizing := { maxBlockSize := 4000, entryOverhead := 100, blockOverhead := 0 }
    let s₁ : Session (Shape.uint .w64).Datum Shape.string.Datum :=
      (start [.clock (.empty 8)] .inMemory {}).run [.request (.make small 0),
        .request (.put 0 1#64 "a"), .request (.put 0 2#64 "b"), .request (.checkpoint 0),
        .request (.make large 0), .boot 1 0, .request (.remove 1 1#64)]
    let s₂ := s₁.run [.request (.checkpoint 1), .boot 1 1]
    (s₁.step (.request (.checkpoint 1))).1 = .snapshot ⟨[]⟩ ∧
      s₁.engine.contents 1 = ([(2#64, "b")] : Entries (Shape.uint .w64).Datum Shape.string.Datum) ∧
      s₂.engine.contents 1 = [] := by
  decide +kernel

end PagedMap.Session
