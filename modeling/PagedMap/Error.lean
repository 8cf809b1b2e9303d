/-!
# Failures

What can go wrong, as causes, with one text for each.  The causes are layered as the library is:
bytes that cannot be decoded (`DecodeError`), a file system that refuses (`IoCause`), a page store
that cannot read or write a page (`StoreError`), and a map that cannot do what it is asked
(`MapError`).  A failure of an inner layer is a cause of the outer one, and its text ends the text
of the outer one.
-/

namespace PagedMap

/-- Why bytes are not the UTF-8 form of a text. -/
inductive Utf8Fault where
  /-- The next `width` bytes start no character. -/
  | invalid (width : Nat)
  /-- The bytes end within a character. -/
  | incomplete
  deriving DecidableEq

namespace Utf8Fault

/-- The text of a fault that follows `start` good bytes. -/
def message (start : Nat) : Utf8Fault → String
  | invalid width => s!"invalid utf-8 sequence of {width} bytes from index {start}"
  | incomplete => s!"incomplete utf-8 byte sequence from index {start}"

end Utf8Fault

/-- Why bytes do not start with the encoding of a datum. -/
inductive DecodeError where
  /-- They end within a number, a tag, or an element of a byte string. -/
  | endOfInput
  /-- They end before the announced length of a text. -/
  | shortText
  /-- The bytes of a text have a fault after `start` good ones. -/
  | badText (start : Nat) (fault : Utf8Fault)
  /-- A truth value is neither 0 nor 1. -/
  | badBool (found : Nat)
  /-- The tag of an option is neither 0 nor 1. -/
  | badTag (found : Nat)
  /-- The bytes of a character are none. -/
  | badChar
  deriving DecidableEq

namespace DecodeError

/-- The text of the error. -/
def message : DecodeError → String
  | endOfInput => "io error: unexpected end of file"
  | shortText => "io error: "
  | badText start fault => "string is not valid utf8: " ++ fault.message start
  | badBool found => s!"invalid u8 while decoding bool, expected 0 or 1, found {found}"
  | badTag found => s!"tag for enum is not valid, found {found}"
  | badChar => "char is not valid"

end DecodeError

/-- Why a read or a write did not happen. -/
inductive IoCause where
  /-- A directory stands where a file is asked for. -/
  | isDirectory
  /-- A path leads through a file. -/
  | notADirectory
  /-- A file stands where a directory is asked for. -/
  | alreadyExists
  /-- There is nothing at the path. -/
  | notFound
  /-- The failure was planned. -/
  | injected
  deriving DecidableEq

namespace IoCause

/-- The text of the cause. -/
def message : IoCause → String
  | isDirectory => "Is a directory (os error 21)"
  | notADirectory => "Not a directory (os error 20)"
  | alreadyExists => "File exists (os error 17)"
  | notFound => "No such file or directory (os error 2)"
  | injected => "injected"

end IoCause

/-- Why a page store cannot serve a page. -/
inductive StoreError where
  /-- A read or a write failed. -/
  | io (cause : IoCause)
  /-- The payload of a page is not the encoding of entries. -/
  | codec (cause : DecodeError)
  /-- The checksum of a page is not that of its payload. -/
  | corrupted (page : Nat)
  /-- The store has no such page. -/
  | pageNotFound (page : Nat)
  deriving DecidableEq

namespace StoreError

/-- The text of the error. -/
def message : StoreError → String
  | io cause => "index storage io error: " ++ cause.message
  | codec cause => "index storage codec error: " ++ cause.message
  | corrupted page => s!"index page {page} is corrupted"
  | pageNotFound page => s!"index page {page} not found"

end StoreError

/-- Why a map cannot do what it is asked. -/
inductive MapError where
  /-- Blocks of at most `maxBlockSize` bytes have no room for any entry. -/
  | blockTooSmall (maxBlockSize : Nat)
  /-- An entry of `size` bytes exceeds the `budget` of a block. -/
  | entryTooLarge (size budget : Nat)
  /-- A range has neither a first nor a last key. -/
  | unboundedRange
  /-- The page store failed. -/
  | storage (cause : StoreError)
  /-- The owner of the page `expected` was asked to unload the page `got`. -/
  | pageMismatch (expected got : Nat)
  /-- The entry belongs to no block that the directory leads to. -/
  | stalled
  deriving DecidableEq

namespace MapError

/-- The text of the error. -/
def message : MapError → String
  | blockTooSmall maxBlockSize =>
    s!"block size {maxBlockSize} too small to store any index entry"
  | entryTooLarge size budget =>
    s!"entry too big to fit in any block: {size} bytes, budget {budget} bytes"
  | unboundedRange => "range query needs at least one bound"
  | storage cause => "index storage error: " ++ cause.message
  | pageMismatch expected got =>
    s!"expecting to receive managed page {expected}, got {got}"
  | stalled => "no block accepts the entry"

end MapError

end PagedMap
