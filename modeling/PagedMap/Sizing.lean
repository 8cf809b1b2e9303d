import PagedMap.Error

/-!
# Sizing of blocks

How large the blocks of a map may grow.  A block of at most `maxBlockSize` bytes spends
`blockOverhead` of them on itself; the rest is its budget, and every entry is charged
`entryOverhead` bytes on top of its key and its value.  A sizing is usable if the budget has room
for more than one entry's overhead.
-/

namespace PagedMap

/-- The limits that a map puts on its blocks. -/
structure Sizing where
  /-- The size of a block, overheads included. -/
  maxBlockSize : Nat := 65536
  /-- The bytes charged to an entry besides its key and its value. -/
  entryOverhead : Nat := 93
  /-- The bytes that a block keeps for itself. -/
  blockOverhead : Nat := 128
  deriving DecidableEq

namespace Sizing

/-- The bytes that the entries of one block may take together. -/
def budget (s : Sizing) : Except MapError Nat :=
  if s.blockOverhead + s.entryOverhead < s.maxBlockSize then
    .ok (s.maxBlockSize - s.blockOverhead)
  else
    .error (.blockTooSmall s.maxBlockSize)

/-- The sizing as text, on one line. -/
def describe (s : Sizing) : String :=
  s!"IndexOption \x7b max_block_size: {s.maxBlockSize}, entry_overhead: {s.entryOverhead}, " ++
    s!"block_overhead: {s.blockOverhead} \x7d"

/-- A sizing is usable exactly if its overheads leave room in a block, and the budget is what the
block does not keep for itself. -/
theorem budget_eq_ok_iff {s : Sizing} {n : Nat} :
    s.budget = .ok n ↔
      s.blockOverhead + s.entryOverhead < s.maxBlockSize ∧
        n = s.maxBlockSize - s.blockOverhead := by
  unfold budget
  split
  · rename_i hroom
    rw [Except.ok.injEq]
    exact ⟨fun h => ⟨hroom, h.symm⟩, fun h => h.2.symm⟩
  · rename_i hroom
    exact ⟨fun h => by simp at h, fun h => absurd h.1 hroom⟩

end Sizing

end PagedMap
