/-!
# Directories of blocks

A directory leads from a key to the block that takes the key.  It lists the blocks of a map by
where they start (`Start`): one block may start before every key, and any other starts at the
least key that it had when it came to be, with its number to tell blocks apart that start at one
key.  A key is taken by the last block that does not start after it (`Directory.floor?`).
-/

namespace PagedMap

/-- Names a block among all blocks there ever were. -/
abbrev BlockRef : Type := Nat

/-- Where a block starts. -/
inductive Start (K : Type) where
  /-- Before every key. -/
  | head
  /-- At a key; of the blocks that start there, the ones with smaller numbers come first. -/
  | at (key : K) (id : Nat)
  deriving DecidableEq

namespace Start

variable {K : Type}

/-- The key where a block starts, unless it starts before every key. -/
def key? : Start K → Option K
  | head => none
  | .at key _ => some key

variable [LE K] [DecidableLE K]

/-- The order of blocks in a directory. -/
def le : Start K → Start K → Bool
  | head, _ => true
  | .at _ _, head => false
  | .at k i, .at l j => k ≤ l ∧ (l ≤ k → i ≤ j)

/-- Whether a block that starts here may take the key. -/
def reaches (s : Start K) (key : K) : Bool := s.key?.all (· ≤ key)

end Start

/-- The blocks of a map, in ascending order of their starts, each start once. -/
abbrev Directory (K : Type) : Type := List (Start K × BlockRef)

namespace Directory

variable {K : Type}

/-- The blocks in order. -/
def refs (d : Directory K) : List BlockRef := d.map (·.2)

variable [LE K] [DecidableLE K]

/-- Lists a block, in place of the block with the same start. -/
def insert (start : Start K) (ref : BlockRef) : Directory K → Directory K
  | [] => [(start, ref)]
  | b :: bs =>
    if b.1.le start then
      if start.le b.1 then (b.1, ref) :: bs else b :: insert start ref bs
    else (start, ref) :: b :: bs

/-- The block that takes the key. -/
def floor? (d : Directory K) (key : K) : Option BlockRef :=
  ((d.filter fun b => b.1.reaches key).getLast?).map (·.2)

end Directory

end PagedMap
