import PagedMap.Generator
import PagedMap.Policy.Page

/-!
# The lottery policy

Pages stand in a row.  To make room one position of the row is drawn, the page there leaves, and
the last page of the row takes its place.  Hits do not matter.
-/

namespace PagedMap

/-- A row of at most `capacity` pages. -/
structure Lottery (ω : Type) where
  capacity : Nat
  /-- The pages, in the order in which positions are numbered. -/
  pages : List (Page ω) := []
  /-- What the next victim is drawn from. -/
  generator : Generator

namespace Lottery

variable {ω : Type}

/-- The row without pages.  It has room for one page at least. -/
def empty (capacity : Nat) (seed : UInt64) : Lottery ω :=
  { capacity := max capacity 1, generator := ⟨seed⟩ }

/-- The position of the page with this key. -/
def position? (r : Lottery ω) (key : PageKey) : Option Nat :=
  r.pages.findIdx? fun page => page.key = key

/-- Takes out what stands at a position and moves the last element there. -/
def takeOut {α : Type} (xs : List α) (i : Nat) : List α :=
  match xs.getLast? with
  | some last => (xs.set i last).dropLast
  | none => []

theorem length_takeOut {α : Type} (xs : List α) (i : Nat) :
    (takeOut xs i).length = xs.length - 1 := by
  unfold takeOut
  split
  · simp
  · simp_all

/-- Puts a page that is not in the row in the place of the page at a position.  The second part is
the page that had to leave. -/
def replace (r : Lottery ω) (page : Page ω) (i : Nat) : Lottery ω × Option (Page ω) :=
  ({ r with pages := takeOut r.pages i ++ [page] }, r.pages[i]?)

/-- Adds a page that is not in the row.  The second part is the page that had to leave. -/
def place (r : Lottery ω) (page : Page ω) : Lottery ω × Option (Page ω) :=
  if r.pages.length < r.capacity then ({ r with pages := r.pages ++ [page] }, none)
  else
    let (i, generator) := Generator.below r.pages.length r.generator
    { r with generator }.replace page i

/-- Adds a page.  A page that is in the row already stays as it is. -/
def add (r : Lottery ω) (page : Page ω) : Lottery ω × Option (Page ω) :=
  match r.position? page.key with
  | some _ => (r, none)
  | none => r.place page

/-- Takes the page with this key out of the row. -/
def remove (r : Lottery ω) (key : PageKey) : Lottery ω :=
  match r.position? key with
  | some i => { r with pages := takeOut r.pages i }
  | none => r

end Lottery

end PagedMap
