import PagedMap.Store.Image
import PagedMap.Volume

/-!
# Page stores on files

A folder keeps the image of each page in a file of its own in one directory.  A new page is first
written to a draft and then renamed, so a file with the name of a page holds the whole page.  A
number given to a page is not given again by the same folder, even if writing the page fails.
When a folder is opened, numbering goes on after the highest number among the names present.
-/

namespace PagedMap

/-- A directory of pages and the number of the next page. -/
structure Folder where
  directory : Path
  nextPage : Nat
  deriving DecidableEq

/-- What may befall the writing of a page. -/
inductive Mishap where
  /-- The draft cannot be made. -/
  | atCreation
  /-- Only the first `written` bytes reach the draft. -/
  | atWriting (written : Nat)
  /-- The draft cannot be renamed. -/
  | atRenaming
  deriving DecidableEq

namespace Folder

variable {α : Type}

/-- The number after those of all pages in the directory at a path, in 64 bits. -/
def firstFree (v : Volume) (path : Path) : Nat :=
  (((v.list path).filterMap fun n => Image.page? n.1).foldl max 0 + 1) % UInt64.size

/-- Opens the directory at a path, which is made if there is none. -/
def openAt (v : Volume) (path : Path) : Except StoreError (Folder × Volume) :=
  match v.makeDirectory path with
  | .ok v => .ok (⟨path, firstFree v path⟩, v)
  | .error cause => .error (.io cause)

/-- The path of the file of a page. -/
def pagePath (f : Folder) (page : Nat) : Path := f.directory ++ [Image.fileName page]

/-- The path of the draft of a page. -/
def draftPath (f : Folder) (page : Nat) : Path := f.directory ++ [Image.draftName page]

/-- The entries of a page. -/
def load [Wire α] (f : Folder) (v : Volume) (page : Nat) : Except StoreError (List α) :=
  match v.read (f.pagePath page) with
  | .ok bytes => Image.entries? page bytes
  | .error .notFound => .error (.pageNotFound page)
  | .error cause => .error (.io cause)

/-- Writes the bytes of a page to its draft and renames it.  A mishap leaves the volume as it is
at that moment. -/
def writePage (f : Folder) (v : Volume) (page : Nat) (bytes : List UInt8) :
    Option Mishap → Except IoCause Unit × Volume
  | some .atCreation => (.error .injected, v)
  | some (.atWriting written) =>
    match v.write (f.draftPath page) (bytes.take written) with
    | .ok v => (.error .injected, v)
    | .error cause => (.error cause, v)
  | mishap =>
    match v.write (f.draftPath page) bytes with
    | .error cause => (.error cause, v)
    | .ok v =>
      if mishap.isSome then (.error .injected, v)
      else
        match v.rename (f.draftPath page) (f.pagePath page) with
        | .ok v => (.ok (), v)
        | .error cause => (.error cause, v)

/-- Writes the entries as a new page and gives its number. -/
def create [Wire α] (f : Folder) (v : Volume) (entries : List α) (mishap : Option Mishap) :
    Except StoreError Nat × Folder × Volume :=
  let page := f.nextPage
  let f' := { f with nextPage := (page + 1) % UInt64.size }
  match f.writePage v page (Image.ofEntries entries) mishap with
  | (.ok (), v) => (.ok page, f', v)
  | (.error cause, v) => (.error (.io cause), f', v)

end Folder

end PagedMap
