import PagedMap.Engine.Paging

/-!
# Snapshots of a map

A snapshot of a map is taken by writing every dirty block to a page and describing the blocks,
without those of size 0 (`Engine.snapshot`).  A map is restored from a snapshot by giving up all
blocks and listing the blocks described, whose entries are read when they are needed
(`Engine.restore`).  A map that is dropped gives up all blocks as well (`Engine.drop`).
-/

namespace PagedMap.Engine

variable {K V : Type}

section Take

variable [Wire K] [Wire V]

/-- Writes a block to a page if it is dirty, and describes it unless its size is 0. -/
def snapshotBlock (ref : BlockRef) : Act K V (Option (BlockInfo K)) := do
  persist ref
  let some b := (← get).blocks[ref]? | return none
  if b.size ≠ 0 then return some b.info
  modify (notify (.emptyBlockDropped b.id))
  return none

/-- Writes the dirty blocks of a map to pages and describes the map. -/
def snapshot (m : Nat) : Act K V (Snapshot K) := do
  let some state := (← get).maps[m]? | return ⟨[]⟩
  let infos ← state.directory.refs.mapM snapshotBlock
  return ⟨infos.filterMap id⟩

end Take

/-- Gives up a block: its entries leave memory, whether they are on a page or not, and its policy
forgets its page. -/
def discard (e : Engine K V) (ref : BlockRef) : Engine K V :=
  match e.blocks[ref]? with
  | none => e
  | some b => (e.setBlock ref b.forgotten).removePage b.home.policy (b.pageOf ref)

/-- Gives up all blocks of a map. -/
def clear (m : Nat) (e : Engine K V) : Engine K V :=
  match e.maps[m]? with
  | none => e
  | some state =>
    let e := state.directory.refs.foldl discard e
    (e.setMap m { state with directory := [] }).notify .mapCleared

/-- Takes a block out of reach. -/
def release (e : Engine K V) (ref : BlockRef) : Engine K V :=
  { e with blocks := e.blocks.modify ref fun b => { b with released := true } }

/-- Gives up all blocks of a map and takes them out of reach. -/
def drop (m : Nat) (e : Engine K V) : Engine K V :=
  match e.maps[m]? with
  | none => e
  | some state => state.directory.refs.foldl release (e.clear m)

variable [LE K] [DecidableLE K]

/-- Lists a block of which only the description is known. -/
def restoreBlock (m : Nat) (e : Engine K V) (info : BlockInfo K) : Engine K V :=
  match e.maps[m]? with
  | none => e
  | some state =>
    let b := Block.ofInfo state.home info
    let directory := Directory.insert b.start e.blocks.length state.directory
    ((e.notify (.blockRestored b.id)).addBlock b).setMap m
      { state with directory, lastId := max state.lastId info.id }

/-- Gives up all blocks of a map and lists the blocks that a snapshot describes. -/
def restore (m : Nat) (snapshot : Snapshot K) (e : Engine K V) : Engine K V :=
  snapshot.blocks.foldl (restoreBlock m)
    ((e.notify (.mapRestored snapshot.blocks.length)).clear m)

end PagedMap.Engine
