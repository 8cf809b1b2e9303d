import PagedMap.Engine.Paging

/-!
# Putting and removing entries

A put goes to the block that the directory names for the key.  The first put into a map without
such a block makes one that starts before every key.  A block that outgrows the budget is split,
and the upper part is listed in the directory and linked as the successor.

If the successor of the block starts at the key or before it, the put would have to look the block
up again (`Attempt.again`).  Nothing has changed then, so it would never end, and `Engine.put`
fails instead.

A removal goes to every block whose bounds cover the key and that has not been reached before, and
from there along the successors.  Only a block whose bounds cover the key is read.
-/

namespace PagedMap

/-- What comes of one attempt to put an entry. -/
inductive Attempt (V : Type) where
  /-- The entry is stored; this is the value it replaced. -/
  | done (previous : Option V)
  /-- The block that the directory names does not take the key. -/
  | again

namespace Engine

variable {K V : Type} [Wire K] [Wire V] [LE K] [DecidableLE K] [Sized K] [Sized V]

/-! ## Put -/

/-- Gives a map its first block, with one entry. -/
def plant (m : Nat) (state : MapState K) (key : K) (value : V) (e : Engine K V) : Engine K V :=
  let b := Block.ofEntry state.home key value (state.home.weight (key, value))
  let ref := e.blocks.length
  let directory := Directory.insert b.start ref state.directory
  ((e.addBlock b).setMap m { state with directory }).addPage b.home.policy (b.pageOf ref)

omit [Wire K] [Wire V] in
/-- Splits a block of a map and lists the upper part, which is given.  A block of less than two
entries stays as it is. -/
def split (m : Nat) (ref : BlockRef) (b : Block K V) (e : Engine K V) :
    Option (BlockRef × Block K V) × Engine K V :=
  match e.maps[m]? with
  | none => (none, e)
  | some state =>
    let upperRef := e.blocks.length
    match b.split? (state.lastId + 1) upperRef with
    | none => (none, e)
    | some (lower, upper) =>
      let directory := Directory.insert upper.start upperRef state.directory
      let e := (e.setBlock ref lower).addBlock upper
      let e := e.setMap m { state with directory, lastId := state.lastId + 1 }
      (some (upperRef, upper), e.notify (.blockSplit b.id upper.id lower.size upper.size))

omit [Wire K] [Wire V] [Sized K] [Sized V] in
/-- Whether the key belongs to the successor of a block or further on. -/
def isPast (e : Engine K V) (b : Block K V) (key : K) : Bool :=
  match b.next.bind (e.blocks[·]?) with
  | some next => next.start.key?.any (· ≤ key)
  | none => false

/-- Stores an entry in the block that the directory names. -/
def putInto (m : Nat) (ref : BlockRef) (key : K) (value : V) : Act K V (Attempt V) := do
  let e ← get
  let some b := e.blocks[ref]? | return .again
  if e.isPast b key then return .again
  let entries ← access ref b
  let grown := (b.loaded entries).insert entries key value
  modify (setBlock ref grown)
  let product ←
    if grown.home.budget < grown.size then modifyGet (split m ref grown) else pure none
  modify (touch ref b)
  if let some (upperRef, upper) := product then
    modify (addPage upper.home.policy (upper.pageOf upperRef))
  return .done (Entries.value? entries key)

/-- One attempt to store an entry.  An entry that exceeds the budget is refused. -/
def putOnce (m : Nat) (key : K) (value : V) : Act K V (Attempt V) := do
  let some state := (← get).maps[m]? | return .done none
  let size := state.home.weight (key, value)
  if state.home.budget < size then throw (.entryTooLarge size state.home.budget)
  match state.directory.floor? key with
  | some ref => putInto m ref key value
  | none =>
    modify (plant m state key value)
    return .done none

/-- Stores a value under a key and gives the value that was stored before. -/
def put (m : Nat) (key : K) (value : V) : Act K V (Option V) := do
  match ← putOnce m key value with
  | .done previous => return previous
  | .again => throw .stalled

/-! ## Remove -/

omit [Wire K] [Wire V] [LE K] [DecidableLE K] [Sized K] [Sized V] in
/-- The blocks from one along the successors, up to the first whose number has been met, and the
numbers met.  The number of blocks, `fuel`, bounds the length. -/
def chain (e : Engine K V) : (fuel : Nat) → (visited : List Nat) → Option BlockRef →
    List BlockRef × List Nat
  | 0, visited, _ => ([], visited)
  | _, visited, none => ([], visited)
  | fuel + 1, visited, some ref =>
    match e.blocks[ref]? with
    | none => ([], visited)
    | some b =>
      if b.id ∈ visited then ([], visited)
      else
        let (refs, visited) := chain e fuel (b.id :: visited) b.next
        (ref :: refs, visited)

omit [Wire K] [Wire V] [Sized K] [Sized V] in
/-- The blocks that a removal reaches, in groups: each group starts at a block of the directory
that covers the key, and goes on along the successors. -/
def removalGroups (e : Engine K V) (key : K) : (visited : List Nat) → List BlockRef →
    List (List BlockRef)
  | _, [] => []
  | visited, ref :: refs =>
    match e.blocks[ref]? with
    | none => removalGroups e key visited refs
    | some b =>
      if b.id ∈ visited ∨ ¬b.covers key then removalGroups e key visited refs
      else
        let (group, visited) := e.chain e.blocks.length visited (some ref)
        group :: removalGroups e key visited refs

/-- Removes the entry of a key from one block and gives its value. -/
def removeFrom (key : K) (ref : BlockRef) : Act K V (Option V) := do
  let some b := (← get).blocks[ref]? | return none
  if !b.covers key then return none
  let entries ← access ref b
  modify (setBlock ref ((b.loaded entries).erase entries key))
  modify (touch ref b)
  return Entries.value? entries key

/-- Removes the entry of a key from each block of a group and gives the first value. -/
def removeFromGroup (key : K) (group : List BlockRef) : Act K V (Option V) :=
  group.foldlM (fun found ref => return found <|> (← removeFrom key ref)) none

/-- Removes the entry of a key and gives its value.  Of several values it gives that of the last
group. -/
def remove (m : Nat) (key : K) : Act K V (Option V) := do
  let e ← get
  let some state := e.maps[m]? | return none
  (e.removalGroups key [] state.directory.refs).foldlM
    (fun found group => return (← removeFromGroup key group) <|> found) none

end Engine

end PagedMap
