import PagedMap.Checksum
import PagedMap.Wire

/-!
# The image of a page

A page is kept in a file of its own.  The file holds the checksum of the payload in four bytes and
then the payload, which is the encoding of the list of entries.  It is named after the page, in
decimal, with the suffix `page`; while it is being written it is named `page.tmp` instead.
-/

namespace PagedMap.Image

variable {α : Type}

/-- The bytes of the file that holds these entries. -/
def ofEntries [Wire α] (entries : List α) : List UInt8 :=
  let payload := Wire.encode entries
  bytesOfNat 4 (Checksum.crc32 payload).toNat ++ payload

/-- The entries held by the file of a page with these bytes. -/
def entries? [Wire α] (page : Nat) (bytes : List UInt8) : Except StoreError (List α) :=
  let payload := bytes.drop 4
  if bytes.length < 4 ∨ natOfBytes (bytes.take 4) ≠ (Checksum.crc32 payload).toNat then
    .error (.corrupted page)
  else
    (Wire.decode? payload).mapError .codec

/-- The name of the file of a page. -/
def fileName (page : Nat) : String := s!"{page}.page"

/-- The name of the file of a page while it is being written. -/
def draftName (page : Nat) : String := s!"{page}.page.tmp"

/-- The number written by these characters: decimal digits, after one plus sign at most. -/
def number? (cs : List Char) : Option Nat :=
  let digits := match cs with
    | '+' :: rest => rest
    | cs => cs
  if digits ≠ [] ∧ digits.all Char.isDigit then
    some (digits.foldl (fun n c => 10 * n + (c.toNat - '0'.toNat)) 0)
  else none

/-- The page that a file of this name is taken for: the name is a number of 64 bits, a dot and the
suffix. -/
def page? (name : String) : Option Nat :=
  match name.toList.reverse with
  | 'e' :: 'g' :: 'a' :: 'p' :: '.' :: stem => (number? stem.reverse).filter (· < UInt64.size)
  | _ => none

end PagedMap.Image
