import PagedMap.Policy.Page

/-!
# The clock policy

Pages sit in slots around a clock, each with a reference bit, which is clear when the page comes
in and is set by every hit.  To make room the hand goes round, clears the bits that are set, and
stops at the first page whose bit is clear (`Clock.sweep`): that page is the victim, and the new
page takes its slot.  A slot that is vacated by hand is used again before the clock grows, the
last vacated slot first.
-/

namespace PagedMap

/-- A page on the clock and its reference bit. -/
structure Slot (ω : Type) where
  page : Page ω
  referenced : Bool

/-- A clock of at most `capacity` slots. -/
structure Clock (ω : Type) where
  capacity : Nat
  /-- The slots in circular order; `none` is a vacant one. -/
  slots : List (Option (Slot ω)) := []
  /-- The vacant slots, the last vacated first. -/
  free : List Nat := []
  /-- The slot that the hand points at. -/
  hand : Nat := 0

namespace Clock

variable {ω : Type}

/-- The clock without pages.  It has room for one page at least, and sets no memory aside. -/
def empty (capacity : Nat) : Clock ω := { capacity := max capacity 1 }

/-- The pages on the clock. -/
def pages (c : Clock ω) : List (Page ω) := c.slots.filterMap fun slot => slot.map (·.page)

/-- The slot of the page with this key. -/
def position? (c : Clock ω) (key : PageKey) : Option Nat :=
  c.slots.findIdx? fun slot => slot.any fun s => s.page.key = key

/-- The page in a slot. -/
def pageAt? (c : Clock ω) (i : Nat) : Option (Page ω) := do
  let slot ← (← c.slots[i]?)
  return slot.page

/-- Sets the reference bit of a slot to the given value. -/
def mark (slots : List (Option (Slot ω))) (i : Nat) (bit : Bool) : List (Option (Slot ω)) :=
  slots.modify i fun slot => slot.map fun s => { s with referenced := bit }

/-- Moves the hand, `steps` slots at most, until it has passed a page whose bit is clear.  The
second part is the slot of that page. -/
def sweep : (steps : Nat) → Clock ω → Clock ω × Nat
  | 0, c => (c, c.hand)
  | steps + 1, c =>
    let moved := { c with hand := (c.hand + 1) % c.slots.length }
    match c.slots[c.hand]? with
    | some (some s) =>
      if s.referenced then sweep steps { moved with slots := mark c.slots c.hand false }
      else (moved, c.hand)
    | _ => sweep steps moved

/-- Puts a page that is not on the clock into a slot.  The second part is the page that had to
leave. -/
def place (c : Clock ω) (page : Page ω) : Clock ω × Option (Page ω) :=
  let slot := some ⟨page, false⟩
  match c.free with
  | i :: free => ({ c with slots := c.slots.set i slot, free }, none)
  | [] =>
    if c.slots.length < c.capacity then ({ c with slots := c.slots ++ [slot] }, none)
    else
      let (swept, i) := sweep (2 * c.slots.length) c
      ({ swept with slots := swept.slots.set i slot }, swept.pageAt? i)

/-- Records a hit of the page with this key. -/
def hit (c : Clock ω) (key : PageKey) : Clock ω :=
  match c.position? key with
  | some i => { c with slots := mark c.slots i true }
  | none => c

/-- Adds a page.  A page that is on the clock already counts as hit. -/
def add (c : Clock ω) (page : Page ω) : Clock ω × Option (Page ω) :=
  match c.position? page.key with
  | some _ => (c.hit page.key, none)
  | none => c.place page

/-- Vacates the slot of the page with this key. -/
def remove (c : Clock ω) (key : PageKey) : Clock ω :=
  match c.position? key with
  | some i => { c with slots := c.slots.set i none, free := i :: c.free }
  | none => c

end Clock

end PagedMap
