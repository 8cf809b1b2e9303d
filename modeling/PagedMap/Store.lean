import PagedMap.Store.Folder

/-!
# Page stores

A page store keeps lists of entries as pages, which are never changed once they are written.  It
reads back the entries of a page (`Store.load`) and writes entries as a page of a new number
(`Store.create`).  The pages are kept in memory, numbered from 1, or in a folder of a volume.

A store can be told to refuse calls to come (`Faults`).  A refused call does not reach the pages.
-/

namespace PagedMap

/-- Stands for the number of a page where there is no page yet. -/
def noPage : Nat := UInt64.size - 1

/-- Where the pages of a store are kept. -/
inductive Backing (K V : Type) where
  /-- In memory; page `n` is the `n`-th of the list. -/
  | memory (pages : List (List (K × V)))
  | folder (f : Folder)

/-- Which calls of one kind are refused, by their numbers from 0. -/
structure Refusals where
  refused : Nat → Bool := fun _ => false
  /-- The number of the next call. -/
  next : Nat := 0

namespace Refusals

/-- The first `n` calls are refused. -/
def first (n : Nat) : Refusals := { refused := fun i => i < n }

/-- Whether the next call is refused. -/
def now (r : Refusals) : Bool := r.refused r.next

/-- What is planned after the next call. -/
def later (r : Refusals) : Refusals := { r with next := r.next + 1 }

end Refusals

/-- Which calls of a store are refused. -/
structure Faults where
  loads : Refusals := {}
  creates : Refusals := {}

/-- A page store. -/
structure Store (K V : Type) where
  backing : Backing K V
  faults : Faults := {}

namespace Store

variable {K V : Type}

/-- A store in memory without pages. -/
def inMemory : Store K V := { backing := .memory [] }

/-- The number of pages, where they are in memory. -/
def pageCount? (s : Store K V) : Option Nat :=
  match s.backing with
  | .memory pages => some pages.length
  | .folder _ => none

/-- The directory of the pages, where they are in a folder. -/
def directory? (s : Store K V) : Option Path :=
  match s.backing with
  | .memory _ => none
  | .folder f => some f.directory

variable [Wire K] [Wire V]

/-- The entries of a page. -/
def read (s : Store K V) (v : Volume) (page : Nat) : Except StoreError (List (K × V)) :=
  match s.backing with
  | .memory pages =>
    match page with
    | 0 => .error (.pageNotFound 0)
    | n + 1 =>
      match pages[n]? with
      | some entries => .ok entries
      | none => .error (.pageNotFound (n + 1))
  | .folder f => f.load v page

/-- Writes entries as a new page and gives its number. -/
def append (s : Store K V) (v : Volume) (entries : List (K × V)) :
    Except StoreError Nat × Store K V × Volume :=
  match s.backing with
  | .memory pages => (.ok (pages.length + 1), { s with backing := .memory (pages ++ [entries]) }, v)
  | .folder f =>
    let (result, f, v) := f.create v entries none
    (result, { s with backing := .folder f }, v)

/-- Reads a page, unless the call is refused. -/
def load (s : Store K V) (v : Volume) (page : Nat) :
    Except StoreError (List (K × V)) × Store K V :=
  let later := { s with faults.loads := s.faults.loads.later }
  if s.faults.loads.now then (.error (.io .injected), later)
  else (s.read v page, later)

/-- Writes a page, unless the call is refused. -/
def create (s : Store K V) (v : Volume) (entries : List (K × V)) :
    Except StoreError Nat × Store K V × Volume :=
  let later := { s with faults.creates := s.faults.creates.later }
  if s.faults.creates.now then (.error (.io .injected), later, v)
  else later.append v entries

end Store

end PagedMap
