import PagedMap.Engine.Paging

/-!
# Reading ranges of keys

A scan goes through the blocks that overlap a range of keys when it is made, and gives the values
within the range, those of one block together and in the order of their keys.  A block is read
when the scan comes to it.  After each block the scan first goes on to its successor, which may
have been split off in the meantime, and it comes to no block number twice.  After a failure it
comes to no block at all.

A scan may be kept open with the engine and asked for one value at a time (`Engine.next`).  A
value, a list of values and the question whether there is one are read by a scan to its first value
or to its end.
-/

namespace PagedMap

namespace Scan

variable {K V : Type}

/-- Whether the scan has not come to the number of a block. -/
def isFresh (s : Scan K V) (e : Engine K V) (ref : BlockRef) : Bool :=
  (e.blocks[ref]?).any (·.id ∉ s.visited)

/-- The next block that the scan comes to, with the scan from there on. -/
def visit? (s : Scan K V) (e : Engine K V) : Option (BlockRef × Scan K V) :=
  match s.queue.dropWhile fun ref => !s.isFresh e ref with
  | [] => none
  | ref :: queue => do
    let b ← e.blocks[ref]?
    return (ref, { s with queue, visited := b.id :: s.visited, buffer := [] })

/-- The scan while it reads a block. -/
def reading (s : Scan K V) (ref : BlockRef) : Scan K V := { s with queue := ref :: s.queue }

/-- The scan after it read a block with these values and this successor. -/
def filled (s : Scan K V) (e : Engine K V) (values : List V) (next : Option BlockRef) : Scan K V :=
  { s with buffer := values, queue := next.toList.filter (s.isFresh e) ++ s.queue }

/-- The scan when it comes to no more blocks. -/
def ended (s : Scan K V) : Scan K V := { s with queue := [], buffer := [] }

end Scan

namespace Engine

variable {K V : Type} [Wire K] [Wire V] [LE K] [DecidableLE K]

/-- The values of a block within a range, and its successor.  A block whose bounds do not overlap
the range is not read. -/
def valuesIn (ref : BlockRef) (first last : Option K) : Act K V (List V × Option BlockRef) := do
  let some b := (← get).blocks[ref]? | return ([], none)
  if !b.overlaps first last then return ([], b.next)
  let entries ← access ref b
  modify (touch ref b)
  return ((Entries.between entries first last).map (·.2), b.next)

/-! ## Scans -/

omit [Wire K] [Wire V] in
/-- A scan over the keys from `first` to `last`, of which one may be missing. -/
def scan (m : Nat) (first last : Option K) (e : Engine K V) : Except MapError (Scan K V) :=
  if first.isNone ∧ last.isNone then .error .unboundedRange
  else
    let refs := match e.maps[m]? with
      | some state => state.directory.refs
      | none => []
    let queue := refs.filter fun ref => (e.blocks[ref]?).any (·.overlaps first last)
    .ok { first, last, queue }

/-- The next value of a scan or the failure to read it, if there is any, with the scan after it.
The scan comes to at most `fuel` blocks, and `keep` tells the engine of the scan while it reads. -/
def nextWithin (keep : Scan K V → Engine K V → Engine K V) : (fuel : Nat) → Scan K V →
    Engine K V → Option (Except MapError V) × Scan K V × Engine K V
  | fuel, s, e =>
    match s.buffer with
    | value :: buffer => (some (.ok value), { s with buffer }, e)
    | [] =>
      match fuel, s.visit? e with
      | fuel + 1, some (ref, s) =>
        match Act.run (valuesIn ref s.first s.last) (keep (s.reading ref) e) with
        | (.ok (values, next), e) => nextWithin keep fuel (s.filled e values next) e
        | (.error cause, e) => (some (.error cause), s.ended, e)
      | _, _ => (none, s.ended, e)

omit [Wire K] [Wire V] in
/-- Opens a scan over the keys from `first` to `last`, of which one may be missing.  Its number is
the number of scans there were. -/
def openScan (m : Nat) (first last : Option K) (e : Engine K V) : Except MapError (Engine K V) := do
  let s ← scan m first last e
  return { e with scans := e.scans ++ [s] }

omit [Wire K] [Wire V] [LE K] [DecidableLE K] in
/-- Ends an open scan. -/
def closeScan (n : Nat) (e : Engine K V) : Engine K V :=
  { e with scans := e.scans.modify n Scan.ended }

/-- The next value of an open scan or the failure to read it, if there is any. -/
def next (n : Nat) (e : Engine K V) : Option (Except MapError V) × Engine K V :=
  match e.scans[n]? with
  | none => (none, e)
  | some s =>
    let (value, s, e) := nextWithin (setScan n) e.blocks.length s e
    (value, e.setScan n s)

/-! ## Values -/

/-- All values of a scan that comes to at most `fuel` blocks. -/
def valuesWithin : (fuel : Nat) → Scan K V → Act K V (List V)
  | 0, s => return s.buffer
  | fuel + 1, s => do
    match s.visit? (← get) with
    | none => return s.buffer
    | some (ref, s') =>
      let (values, next) ← valuesIn ref s'.first s'.last
      return s.buffer ++ (← valuesWithin fuel (s'.filled (← get) values next))

/-- The values stored under the keys from `first` to `last`, of which one may be missing. -/
def valuesBetween (m : Nat) (first last : Option K) : Act K V (List V) := do
  let e ← get
  match scan m first last e with
  | .ok s => valuesWithin e.blocks.length s
  | .error cause => throw cause

/-- The values stored under a key. -/
def valuesAt (m : Nat) (key : K) : Act K V (List V) := valuesBetween m (some key) (some key)

/-- The value stored under a key. -/
def get? (m : Nat) (key : K) : Act K V (Option V) := do
  let e ← get
  match scan m (some key) (some key) e with
  | .error cause => throw cause
  | .ok s =>
    let (value, _, e) := nextWithin (fun _ e => e) e.blocks.length s e
    set e
    match value with
    | some (.ok value) => return some value
    | some (.error cause) => throw cause
    | none => return none

/-- Whether a value is stored under a key. -/
def contains (m : Nat) (key : K) : Act K V Bool := return (← get? m key).isSome

end Engine

end PagedMap
