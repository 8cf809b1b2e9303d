import PagedMap.Block
import PagedMap.Journal
import PagedMap.Sizing

/-!
# Engines

An engine is everything that a group of maps shares: replacement policies, page stores, the volume
on which folders of pages lie, the scans under way, and all blocks of all maps.  Policies, stores,
maps, scans and blocks are numbered in the order in which they came to be, and no number is used
twice; a block that its map has given up stays where it is, since a scan or a policy may still hold
its number.

A map that is dropped takes its blocks with it.  They are out of reach from then on, except that a
scan which has yet to come to one of them can reach it and its successors (`Engine.isLive`).

`Act` is the type of what can be done with an engine: it changes the engine, and succeeds or fails
with a cause.  What it changed before it failed stays changed.
-/

namespace PagedMap

/-- A map: its blocks in order, and the highest number given to any of them. -/
structure MapState (K : Type) where
  home : Home
  directory : Directory K := []
  /-- New blocks count on from here without end, as a 64-bit counter does until it wraps to 0. -/
  lastId : Nat := 0

/-- A scan under way, which reads the values of the keys from `first` to `last`. -/
structure Scan (K V : Type) where
  first : Option K
  last : Option K
  /-- The blocks to come to, in order. -/
  queue : List BlockRef
  /-- The numbers of the blocks the scan came to. -/
  visited : List Nat := []
  /-- The values read and not yet given. -/
  buffer : List V := []

/-- Maps, and what they share. -/
structure Engine (K V : Type) where
  /-- All blocks there ever were, at their references. -/
  blocks : List (Block K V) := []
  maps : List (MapState K) := []
  policies : List (Policy BlockRef) := []
  stores : List (Store K V) := []
  /-- All scans there ever were; one that is closed comes to no more blocks. -/
  scans : List (Scan K V) := []
  /-- Where the folders of page stores lie. -/
  volume : Volume := {}
  /-- What happened, the latest first. -/
  events : List (Event K V) := []

/-- Something to be done with an engine. -/
abbrev Act (K V α : Type) : Type := ExceptT MapError (StateM (Engine K V)) α

namespace Act

variable {K V α : Type}

/-- What comes of it, and the engine afterwards. -/
def run (a : Act K V α) (e : Engine K V) : Except MapError α × Engine K V :=
  (ExceptT.run a).run e

/-- A call of a page store.  Its failure is a failure of the map. -/
def ofStore (call : Engine K V → Except StoreError α × Engine K V) : Act K V α :=
  ExceptT.mk fun e => ((call e).1.mapError .storage, (call e).2)

variable {β : Type}

@[simp] theorem run_pure (x : α) (e : Engine K V) : run (pure x : Act K V α) e = (.ok x, e) := rfl

@[simp] theorem run_throw (cause : MapError) (e : Engine K V) :
    run (throw cause : Act K V α) e = (.error cause, e) := rfl

@[simp] theorem run_get (e : Engine K V) : run (get : Act K V (Engine K V)) e = (.ok e, e) := rfl

@[simp] theorem run_modify (f : Engine K V → Engine K V) (e : Engine K V) :
    run (modify f : Act K V Unit) e = (.ok (), f e) := rfl

@[simp] theorem run_set (e' e : Engine K V) : run (set e' : Act K V Unit) e = (.ok (), e') := rfl

@[simp] theorem run_modifyGet (f : Engine K V → α × Engine K V) (e : Engine K V) :
    run (modifyGet f : Act K V α) e = (.ok (f e).1, (f e).2) := rfl

@[simp] theorem run_ofStore (call : Engine K V → Except StoreError α × Engine K V)
    (e : Engine K V) : run (ofStore call) e = ((call e).1.mapError .storage, (call e).2) := rfl

/-- What follows a failure is not done, and the engine stays as the failure left it. -/
theorem run_bind (a : Act K V α) (f : α → Act K V β) (e : Engine K V) :
    run (a >>= f) e =
      match run a e with
      | (.ok x, e) => run (f x) e
      | (.error cause, e) => (.error cause, e) := by
  simp only [run, ExceptT.run_bind, StateT.run_bind]
  split <;> simp_all <;> rfl

theorem run_map (f : α → β) (a : Act K V α) (e : Engine K V) :
    run (f <$> a) e = ((run a e).1.map f, (run a e).2) := by
  rw [map_eq_pure_bind, run_bind]
  split <;> simp_all [Except.map]

end Act

namespace Engine

variable {K V : Type}

/-! ## Records and blocks -/

/-- Records an event. -/
def record (event : Event K V) (e : Engine K V) : Engine K V :=
  { e with events := event :: e.events }

/-- Tells an observer. -/
def notify (notice : Notice) (e : Engine K V) : Engine K V := e.record (.noticed notice)

/-- What happened, in the order in which it did. -/
def history (e : Engine K V) : List (Event K V) := e.events.reverse

/-- Replaces a block. -/
def setBlock (ref : BlockRef) (b : Block K V) (e : Engine K V) : Engine K V :=
  { e with blocks := e.blocks.set ref b }

/-- Replaces what is known of a map. -/
def setMap (m : Nat) (state : MapState K) (e : Engine K V) : Engine K V :=
  { e with maps := e.maps.set m state }

/-- Adds a block.  Its number is the number of blocks there were. -/
def addBlock (b : Block K V) (e : Engine K V) : Engine K V := { e with blocks := e.blocks ++ [b] }

/-- Replaces a scan. -/
def setScan (n : Nat) (s : Scan K V) (e : Engine K V) : Engine K V :=
  { e with scans := e.scans.set n s }

/-- A block and its successors, `fuel` blocks at most. -/
def trail (e : Engine K V) : (fuel : Nat) → BlockRef → List BlockRef
  | 0, _ => []
  | fuel + 1, ref =>
    match (e.blocks[ref]?).bind (·.next) with
    | some next => ref :: trail e fuel next
    | none => [ref]

/-- Whether a scan has yet to come to a block or to one whose successors lead to it. -/
def isAwaited (e : Engine K V) (ref : BlockRef) : Bool :=
  e.scans.any fun s => s.queue.any fun start => ref ∈ e.trail e.blocks.length start

/-- Whether a block is within reach: it did not go with its map, or a scan has yet to come to
it. -/
def isLive (e : Engine K V) (ref : BlockRef) : Bool :=
  match e.blocks[ref]? with
  | none => false
  | some b => !b.released || e.isAwaited ref

/-- The number of blocks in the directory of a map. -/
def blockCount (e : Engine K V) (m : Nat) : Nat :=
  match e.maps[m]? with
  | some state => state.directory.length
  | none => 0

/-! ## Policies, stores and maps -/

/-- Adds a replacement policy. -/
def addPolicy (p : Policy BlockRef) (e : Engine K V) : Engine K V :=
  { e with policies := e.policies ++ [p] }

/-- Adds a page store. -/
def addStore (s : Store K V) (e : Engine K V) : Engine K V := { e with stores := e.stores ++ [s] }

/-- Adds a page store on the directory at a path. -/
def openFolder (path : Path) (e : Engine K V) : Except StoreError (Engine K V) := do
  let (f, volume) ← Folder.openAt e.volume path
  return { e with volume }.addStore { backing := .folder f }

/-- Adds a map without blocks.  Its number as an owner of pages counts from 1. -/
def addMap (sizing : Sizing) (policy store : Nat) (e : Engine K V) :
    Except MapError (Engine K V) := do
  let budget ← sizing.budget
  let home : Home :=
    { owner := e.maps.length + 1, policy, store, entryOverhead := sizing.entryOverhead, budget }
  return { e with maps := e.maps ++ [{ home }] }

/-- Plans which calls of a store are refused. -/
def plan (store : Nat) (faults : Faults) (e : Engine K V) : Engine K V :=
  { e with stores := e.stores.modify store fun s => { s with faults } }

end Engine

end PagedMap
