import PagedMap.Directory
import PagedMap.Error
import PagedMap.Policy.Page

/-!
# What happened

Two kinds of happenings are recorded.  A `Notice` tells an observer what became of a block, a page
or a map; it has a level, the part of the library that it comes from, a name, and named fields.
An `Event` is a notice or a call of a page store or a replacement policy, with what came of it.
-/

namespace PagedMap

/-- How much a notice matters. -/
inductive Level where
  | debug
  | info
  | warn
  deriving DecidableEq

/-- The value of a field of a notice. -/
inductive Field where
  | number (n : Nat)
  | truth (b : Bool)
  | text (s : String)
  deriving DecidableEq

/-- Something worth telling an observer. -/
inductive Notice where
  /-- A block was split; the sizes are those of the two parts. -/
  | blockSplit (id newId keepSize otherSize : Nat)
  /-- The entries of a block were written as a page. -/
  | blockPersisted (id page entries : Nat)
  /-- The entries of a block left memory. -/
  | blockUnloaded (id : Nat)
  /-- A snapshot leaves out a block without entries. -/
  | emptyBlockDropped (id : Nat)
  /-- A map of so many blocks is to be restored. -/
  | mapRestored (blocks : Nat)
  /-- A block was restored from its description. -/
  | blockRestored (id : Nat)
  /-- A map lost all blocks. -/
  | mapCleared
  /-- A page was asked to leave memory, and whether there was anything to unload. -/
  | pageEvicted (key : PageKey) (unloaded : Bool)
  /-- A page could not leave memory. -/
  | evictionFailed (key : PageKey) (cause : MapError)
  deriving DecidableEq

namespace Notice

/-- The notice of what came of asking a page to leave memory. -/
def ofEviction (key : PageKey) : Except MapError Bool → Notice
  | .ok unloaded => pageEvicted key unloaded
  | .error cause => evictionFailed key cause

/-- A failed eviction is a warning, a restored map is information, all else is detail. -/
def level : Notice → Level
  | evictionFailed .. => .warn
  | mapRestored _ => .info
  | _ => .debug

/-- The part of the library that the notice comes from. -/
def component : Notice → String
  | blockSplit .. | blockPersisted .. | blockUnloaded _ => "block"
  | emptyBlockDropped _ | mapRestored _ | blockRestored _ | mapCleared => "directory"
  | pageEvicted .. | evictionFailed .. => "policy"

/-- The name of the notice. -/
def name : Notice → String
  | blockSplit .. => "block_split"
  | blockPersisted .. => "block_checkpoint"
  | blockUnloaded _ => "block_unloaded"
  | emptyBlockDropped _ => "empty_block_dropped"
  | mapRestored _ => "index_boot"
  | blockRestored _ => "block_restored"
  | mapCleared => "index_cleared"
  | pageEvicted .. => "page_evicted"
  | evictionFailed .. => "eviction_failed"

/-- The named fields of the notice. -/
def fields : Notice → List (String × Field)
  | blockSplit id newId keepSize otherSize =>
    [("block_id", .number id), ("new_block_id", .number newId), ("keep_size", .number keepSize),
      ("other_size", .number otherSize)]
  | blockPersisted id page entries =>
    [("block_id", .number id), ("page_id", .number page), ("entries", .number entries)]
  | blockUnloaded id | emptyBlockDropped id | blockRestored id => [("block_id", .number id)]
  | mapRestored blocks => [("blocks", .number blocks)]
  | mapCleared => []
  | pageEvicted key unloaded =>
    [("owner_id", .number key.ownerId), ("page_id", .number key.pageId),
      ("unloaded", .truth unloaded)]
  | evictionFailed key cause =>
    [("owner_id", .number key.ownerId), ("page_id", .number key.pageId),
      ("error", .text cause.message)]

end Notice

/-- What a replacement policy is told about a page. -/
inductive Report where
  | add
  | hit
  | remove
  deriving DecidableEq

/-- A notice, or a call of a page store or of a replacement policy. -/
inductive Event (K V : Type) where
  /-- A page was read; the result is the number of entries. -/
  | pageLoaded (store page : Nat) (result : Except StoreError Nat)
  /-- Entries were written as a page; the result is its number. -/
  | pageCreated (store : Nat) (entries : List (K × V)) (result : Except StoreError Nat)
  /-- A policy is told about a page. -/
  | reported (report : Report) (policy : Nat) (page : Page BlockRef)
  /-- An observer is told something. -/
  | noticed (notice : Notice)

end PagedMap
