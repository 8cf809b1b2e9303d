import PagedMap.Policy.Clock
import PagedMap.Policy.Lottery

/-!
# Replacement policies

A policy decides which pages stay in memory.  It is told of every page that comes in (`add`), of
every use (`hit`) and of every page that is given up (`remove`), and answers an `add` that exceeds
its capacity with the page that has to leave.  It tracks at most `capacity` pages.
-/

namespace PagedMap

/-- A policy over pages whose owners are reached through `ω`. -/
inductive Policy (ω : Type) where
  | clock (c : Clock ω)
  | lottery (r : Lottery ω)

namespace Policy

variable {ω : Type}

/-- The most pages that are tracked at a time. -/
def capacity : Policy ω → Nat
  | clock c => c.capacity
  | lottery r => r.capacity

/-- The pages that are tracked. -/
def pages : Policy ω → List (Page ω)
  | clock c => c.pages
  | lottery r => r.pages

/-- The number of pages that are tracked. -/
def size (p : Policy ω) : Nat := p.pages.length

/-- Tracks a page.  The second part is the page that has to leave for it. -/
def add : Policy ω → Page ω → Policy ω × Option (Page ω)
  | clock c, page => ((clock (c.add page).1), (c.add page).2)
  | lottery r, page => ((lottery (r.add page).1), (r.add page).2)

/-- Records a use of the page with this key. -/
def hit : Policy ω → PageKey → Policy ω
  | clock c, key => clock (c.hit key)
  | lottery r, _ => lottery r

/-- Forgets the page with this key. -/
def remove : Policy ω → PageKey → Policy ω
  | clock c, key => clock (c.remove key)
  | lottery r, key => lottery (r.remove key)

end Policy

end PagedMap
