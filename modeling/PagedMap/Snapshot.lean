import PagedMap.Wire

/-!
# Snapshots

A snapshot describes the blocks of a map at one moment, in the order of its directory, without
their entries: a block is described by its least and greatest key, its number, the size of its
entries and the page that holds them.  A snapshot and the page store suffice to restore the map.
-/

namespace PagedMap

/-- The description of one block. -/
structure BlockInfo (K : Type) where
  firstKey : K
  lastKey : K
  id : Nat
  size : Nat
  page : Nat
  deriving DecidableEq

/-- The description of the blocks of a map. -/
structure Snapshot (K : Type) where
  blocks : List (BlockInfo K)
  deriving DecidableEq

instance {K : Type} [Wire K] : Wire (BlockInfo K) where
  encode b := Wire.encode b.firstKey ++ Wire.encode b.lastKey ++
    (bytesOfNat 8 b.id ++ bytesOfNat 8 b.size ++ bytesOfNat 8 b.page)
  decoder := do
    let firstKey ← Wire.decoder
    let lastKey ← Wire.decoder
    let id ← Decoder.nat 8
    let size ← Decoder.nat 8
    let page ← Decoder.nat 8
    return { firstKey, lastKey, id, size, page }

instance {K : Type} [Wire K] : Wire (Snapshot K) where
  encode s := Wire.encode s.blocks
  decoder := Snapshot.mk <$> Wire.decoder

end PagedMap
