import PagedMap.Error
import PagedMap.Shape
import PagedMap.Text.Utf8

/-!
# The wire format

Every datum has one encoding as bytes.  An integer is its bytes from the lowest to the highest;
a truth value and the tag of an option are one byte, 0 or 1; a character is its UTF-8 bytes; a
list, a text and a byte string are preceded by their length as an integer of eight bytes; a tuple
is the sequence of its parts.

A decoder reads a datum off the front of the bytes and leaves what follows it.  `Wire.decode?`
reads one datum and ignores what follows.
-/

namespace PagedMap

/-- Reads a datum off the front of the bytes. -/
abbrev Decoder (α : Type) : Type := StateT (List UInt8) (Except DecodeError) α

/-- The little-endian form of a number in `n` bytes. -/
def bytesOfNat : (n : Nat) → Nat → List UInt8
  | 0, _ => []
  | n + 1, x => UInt8.ofNat x :: bytesOfNat n (x / 256)

/-- The number with this little-endian form. -/
def natOfBytes (bs : List UInt8) : Nat := bs.foldr (fun b x => b.toNat + 256 * x) 0

theorem length_bytesOfNat (n x : Nat) : (bytesOfNat n x).length = n := by
  induction n generalizing x with
  | zero => rfl
  | succ n ih => simp [bytesOfNat, ih]

namespace Decoder

variable {α : Type}

/-- The next byte. -/
def byte : Decoder UInt8 := fun
  | [] => .error .endOfInput
  | b :: rest => .ok (b, rest)

/-- As many data as told, one after another. -/
def times (read : Decoder α) : Nat → Decoder (List α)
  | 0 => pure []
  | n + 1 => do
    let x ← read
    let xs ← times read n
    return x :: xs

/-- A number of `n` bytes. -/
def nat (n : Nat) : Decoder Nat := natOfBytes <$> times byte n

/-- The length of a list, a text or a byte string. -/
def length : Decoder Nat := nat 8

/-- The bytes of a text of `n` bytes.  A text that is cut short is an error of its own. -/
def textBytes (n : Nat) : Decoder (List UInt8) := fun bs =>
  match times byte n bs with
  | .ok r => .ok r
  | .error _ => .error .shortText

/-- The bytes of a text of `n` bytes, read as text. -/
def text (n : Nat) : Decoder String := do
  match Text.ofBytes? (← textBytes n) with
  | .ok s => return s
  | .error (start, fault) => throw (.badText start fault)

/-- A character. -/
def char : Decoder Char := fun
  | [] => .error .endOfInput
  | b :: rest => (Text.readChar b rest).mapError fun _ => .badChar

end Decoder

/-- Data with an encoding. -/
class Wire (α : Type) where
  /-- The encoding of a datum. -/
  encode : α → List UInt8
  /-- Reads the encoding of a datum. -/
  decoder : Decoder α

namespace Wire

variable {α β : Type}

/-- The datum whose encoding the bytes start with. -/
def decode? [Wire α] (bs : List UInt8) : Except DecodeError α :=
  (Prod.fst) <$> decoder.run bs

/-- The encoding of the length of a list, a text or a byte string. -/
def encodeLength (n : Nat) : List UInt8 := bytesOfNat 8 n

instance : Wire UInt8 where
  encode b := [b]
  decoder := Decoder.byte

instance (n : Nat) : Wire (BitVec (8 * n)) where
  encode x := bytesOfNat n x.toNat
  decoder := BitVec.ofNat (8 * n) <$> Decoder.nat n

instance : Wire Bool where
  encode x := [if x then 1 else 0]
  decoder := do
    match ← Decoder.byte with
    | 0 => return false
    | 1 => return true
    | b => throw (.badBool b.toNat)

instance : Wire Char where
  encode := String.utf8EncodeChar
  decoder := Decoder.char

instance : Wire String where
  encode s := encodeLength s.utf8ByteSize ++ Text.bytes s
  decoder := Decoder.length >>= Decoder.text

instance [Wire α] : Wire (List α) where
  encode xs := encodeLength xs.length ++ xs.flatMap encode
  decoder := Decoder.length >>= Decoder.times decoder

instance [Wire α] : Wire (Option α) where
  encode
    | none => [0]
    | some x => 1 :: encode x
  decoder := do
    match ← Decoder.byte with
    | 0 => return none
    | 1 => some <$> decoder
    | b => throw (.badTag b.toNat)

instance [Wire α] [Wire β] : Wire (α × β) where
  encode x := encode x.1 ++ encode x.2
  decoder := do
    let a ← decoder
    let b ← decoder
    return (a, b)

/-- The encodings of the data of a shape. -/
@[reducible]
def ofShape : (s : Shape) → Wire s.Datum
  | .uint w | .int w => inferInstanceAs (Wire (BitVec (8 * w.bytes)))
  | .bool => inferInstanceAs (Wire Bool)
  | .char => inferInstanceAs (Wire Char)
  | .string => inferInstanceAs (Wire String)
  | .bytes => inferInstanceAs (Wire (List UInt8))
  | .option s =>
    letI := ofShape s
    inferInstanceAs (Wire (Option s.Datum))
  | .pair a b =>
    letI := ofShape a
    letI := ofShape b
    inferInstanceAs (Wire (a.Datum × b.Datum))
  | .triple a b c =>
    letI := ofShape a
    letI := ofShape b
    letI := ofShape c
    inferInstanceAs (Wire (a.Datum × b.Datum × c.Datum))

instance (s : Shape) : Wire s.Datum := ofShape s

end Wire

end PagedMap
