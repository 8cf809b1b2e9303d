/-!
# Pages, as a replacement policy sees them

A policy keeps track of the pages that are in memory.  It knows a page by its key, which names
the owner and the page within the owner, and keeps with it a handle `ω` through which the owner
can be reached.  Two pages are the same page if their keys are equal, whatever their handles.
-/

namespace PagedMap

/-- Which page of which owner. -/
structure PageKey where
  ownerId : Nat
  pageId : Nat
  deriving DecidableEq

/-- A page and the handle of its owner. -/
structure Page (ω : Type) where
  key : PageKey
  owner : ω

/-- The key as text. -/
def PageKey.describe (k : PageKey) : String :=
  s!"PageKey \x7b owner_id: {k.ownerId}, page_id: {k.pageId} \x7d"

/-- The page as text. -/
def Page.describe {ω : Type} (p : Page ω) : String :=
  s!"Page \x7b owner_id: {p.key.ownerId}, page_id: {p.key.pageId} \x7d"

end PagedMap
