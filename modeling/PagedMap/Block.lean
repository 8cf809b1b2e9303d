import PagedMap.Directory
import PagedMap.Entries
import PagedMap.Policy
import PagedMap.Sized
import PagedMap.Snapshot
import PagedMap.Store

/-!
# Blocks

A block holds the entries of one stretch of keys.  Its entries are in memory or only on its page;
its bounds, its size and its successor are known in both cases.

* The bounds contain every key of the block.  They grow with the keys that come in, do not shrink
  when keys go, and are made tight when the block is split.
* The size is what the entries weigh together.
* The successor is the block that was last split off, and takes the keys from where it starts.
* A block is dirty if its page, if it has any, does not hold its present entries.
* A block is tracked if the replacement policy has its page.

Sizes and numbers of blocks are counted without end.  They are those counted in 64-bit words as long
as none of these wraps around.

This file has the operations that need the entries of one block and nothing else.
-/

namespace PagedMap

/-- What the blocks of one map have in common. -/
structure Home where
  /-- The number of the map, which is the owner of its pages. -/
  owner : Nat
  /-- The replacement policy, by its number. -/
  policy : Nat
  /-- The page store, by its number. -/
  store : Nat
  /-- The bytes charged to an entry besides its key and its value. -/
  entryOverhead : Nat
  /-- The bytes that the entries of one block may take together. -/
  budget : Nat
  deriving DecidableEq

/-- The bytes charged to an entry, a sum that does not wrap around at `2 ^ 64`. -/
def Home.weight {K V : Type} [Sized K] [Sized V] (home : Home) (entry : K × V) : Nat :=
  Sized.size entry.1 + Sized.size entry.2 + home.entryOverhead

/-- A block of a map. -/
structure Block (K V : Type) where
  home : Home
  start : Start K
  /-- The number of the block within its map; the block that starts before every key has 0. -/
  id : Nat
  minKey : K
  maxKey : K
  /-- The entries, if they are in memory. -/
  entries : Option (Entries K V)
  size : Nat
  next : Option BlockRef
  dirty : Bool
  page : Nat
  tracked : Bool
  /-- Whether the map of the block was dropped while it had the block. -/
  released : Bool := false

namespace Block

variable {K V : Type}

/-- The first block of a map, with one entry. -/
def ofEntry (home : Home) (key : K) (value : V) (size : Nat) : Block K V where
  home := home
  start := .head
  id := 0
  minKey := key
  maxKey := key
  entries := some [(key, value)]
  size := size
  next := none
  dirty := true
  page := noPage
  tracked := true

/-- A block of which only the description is known. -/
def ofInfo (home : Home) (info : BlockInfo K) : Block K V where
  home := home
  start := if info.id = 0 then .head else .at info.firstKey info.id
  id := info.id
  minKey := info.firstKey
  maxKey := info.lastKey
  entries := none
  size := info.size
  next := none
  dirty := false
  page := info.page
  tracked := false

/-- The description of a block. -/
def info (b : Block K V) : BlockInfo K :=
  { firstKey := b.minKey, lastKey := b.maxKey, id := b.id, size := b.size, page := b.page }

/-- The page of a block, as its replacement policy sees it. -/
def pageOf (b : Block K V) (ref : BlockRef) : Page BlockRef := ⟨⟨b.home.owner, b.id⟩, ref⟩

/-- The block with its entries in memory and its page with the policy. -/
def loaded (b : Block K V) (entries : Entries K V) : Block K V :=
  { b with entries := some entries, tracked := true }

/-- The block without its entries in memory and without its page with the policy. -/
def forgotten (b : Block K V) : Block K V := { b with entries := none, tracked := false }

section Order

variable [LE K] [DecidableLE K]

/-- Whether the bounds leave room for a key between `first` and `last`. -/
def overlaps (b : Block K V) (first last : Option K) : Bool :=
  first.all (· ≤ b.maxKey) && last.all (b.minKey ≤ ·)

/-- Whether the key is within the bounds. -/
def covers (b : Block K V) (key : K) : Bool := b.minKey ≤ key ∧ key ≤ b.maxKey

/-- The block with bounds that contain the key. -/
def widen (b : Block K V) (key : K) : Block K V :=
  { b with
    minKey := if b.minKey ≤ key then b.minKey else key
    maxKey := if key ≤ b.maxKey then b.maxKey else key }

variable [Sized K] [Sized V]

/-- What the size of the block is without the entry.  It stops at 0. -/
def sizeWithout (b : Block K V) (key : K) : Option V → Nat
  | some value => b.size - b.home.weight (key, value)
  | none => b.size

/-- The block after a value is stored under a key, where `entries` are its entries.  The new size
does not wrap around at `2 ^ 64`. -/
def insert (b : Block K V) (entries : Entries K V) (key : K) (value : V) : Block K V :=
  { b.widen key with
    entries := some (Entries.insert key value entries)
    size := b.sizeWithout key (Entries.value? entries key) + b.home.weight (key, value)
    dirty := true }

/-- The block after the entry of a key is removed, where `entries` are its entries.  A block
without such an entry stays as it is. -/
def erase (b : Block K V) (entries : Entries K V) (key : K) : Block K V :=
  match Entries.value? entries key with
  | some value =>
    { b with
      entries := some (Entries.erase entries key)
      size := b.sizeWithout key (some value)
      dirty := true }
  | none => b

end Order

/-- Splits a block whose entries are in memory: the upper half by weight goes to a new block of
the given number and reference, which comes between the block and its successor. -/
def split? [Sized K] [Sized V] (b : Block K V) (id : Nat) (ref : BlockRef) :
    Option (Block K V × Block K V) := do
  let entries ← b.entries
  let (front, back, weight) ← Entries.cut? b.home.weight (b.size / 2) entries
  let lower :=
    { b with
      minKey := (← front.head?).1
      maxKey := (← front.getLast?).1
      entries := some front
      size := weight
      next := some ref }
  let first ← back.head?
  let upper :=
    { b with
      start := .at first.1 id
      id := id
      minKey := first.1
      maxKey := (← back.getLast?).1
      entries := some back
      size := b.size - weight
      dirty := true
      page := noPage
      tracked := true }
  return (lower, upper)

end Block

end PagedMap
