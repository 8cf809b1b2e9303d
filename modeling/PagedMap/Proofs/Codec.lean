import Mathlib
import PagedMap.Proofs.Utf8
import PagedMap.Store.Image

/-!
# Reading back what was written

An encoding is lossless (`Lossless`) if every datum is read off the front of its own bytes and what
follows is left.  The length of a list or a text is written as a number of 64 bits, so this holds
for data within which every length is one (`Lossless.Fits`).  All shapes are lossless, and so is the
image of a page (`Image.entries?_ofEntries`).
-/

namespace PagedMap

theorem natOfBytes_bytesOfNat {n x : Nat} (h : x < 256 ^ n) : natOfBytes (bytesOfNat n x) = x := by
  induction n generalizing x with
  | zero => simp_all [bytesOfNat, natOfBytes]
  | succ n ih =>
    have hdiv : x / 256 < 256 ^ n := by
      rw [Nat.pow_succ] at h
      omega
    have hrest := ih hdiv
    unfold natOfBytes at hrest ⊢
    rw [bytesOfNat, List.foldr_cons, hrest, UInt8.toNat_ofNat']
    omega

/-- Data that are read off the front of their encoding. -/
class Lossless (α : Type) [Wire α] where
  /-- Every length within the datum is a number of 64 bits. -/
  Fits : α → Prop
  decoder_encode (x : α) (rest : List UInt8) (h : Fits x) :
    Wire.decoder (Wire.encode x ++ rest) = .ok (x, rest)

namespace Decoder

variable {α : Type}

@[simp] theorem bind_apply {β : Type} (r : Decoder α) (f : α → Decoder β) (bs : List UInt8) :
    (r >>= f) bs = (r bs >>= fun p => f p.1 p.2) := rfl

@[simp] theorem map_apply {β : Type} (f : α → β) (r : Decoder α) (bs : List UInt8) :
    (f <$> r) bs = (r bs).map fun p => (f p.1, p.2) := by
  change (do let p ← r bs; pure (f p.1, p.2)) = _
  cases r bs <;> rfl

@[simp] theorem pure_apply (x : α) (bs : List UInt8) :
    (pure x : Decoder α) bs = .ok (x, bs) := rfl

@[simp] theorem byte_cons (b : UInt8) (bs : List UInt8) : byte (b :: bs) = .ok (b, bs) := rfl

@[simp] theorem ok_bind {β ε : Type} (x : α) (f : α → Except ε β) : (Except.ok x >>= f) = f x := rfl

theorem times_flatMap {read : Decoder α} {encode : α → List UInt8} {xs : List α}
    (h : ∀ x ∈ xs, ∀ rest, read (encode x ++ rest) = .ok (x, rest)) (rest : List UInt8) :
    times read xs.length (xs.flatMap encode ++ rest) = .ok (xs, rest) := by
  induction xs with
  | nil => rfl
  | cons x xs ih =>
    have hx := h x (by simp)
    have hrest := ih fun y hy => h y (by simp [hy])
    simp only [List.length_cons, times, List.flatMap_cons, List.append_assoc, bind_apply, hx,
      ok_bind, hrest, pure_apply]

theorem times_byte (bs rest : List UInt8) : times byte bs.length (bs ++ rest) = .ok (bs, rest) := by
  have h : times byte bs.length (bs.flatMap (fun b => [b]) ++ rest) = .ok (bs, rest) :=
    times_flatMap (fun _ _ _ => rfl) rest
  simpa using h

theorem nat_append {n x : Nat} (h : x < 256 ^ n) (rest : List UInt8) :
    nat n (bytesOfNat n x ++ rest) = .ok (x, rest) := by
  have hbytes := times_byte (bytesOfNat n x) rest
  rw [length_bytesOfNat] at hbytes
  rw [nat, map_apply, hbytes]
  simp [Except.map, natOfBytes_bytesOfNat h]

theorem length_append {n : Nat} (h : n < UInt64.size) (rest : List UInt8) :
    length (Wire.encodeLength n ++ rest) = .ok (n, rest) := nat_append h rest

theorem text_append (s : String) (rest : List UInt8) :
    text s.utf8ByteSize (Text.bytes s ++ rest) = .ok (s, rest) := by
  have hbytes := times_byte (Text.bytes s) rest
  rw [Text.length_bytes] at hbytes
  simp [text, textBytes, hbytes, Text.ofBytes?_bytes]

end Decoder

namespace Lossless

variable {α β : Type}

open Decoder

instance : Lossless UInt8 where
  Fits _ := True
  decoder_encode _ _ _ := rfl

instance (n : Nat) : Lossless (BitVec (8 * n)) where
  Fits _ := True
  decoder_encode x rest _ := by
    have hlt : x.toNat < 256 ^ n := by
      have := x.isLt
      rwa [Nat.pow_mul] at this
    change (BitVec.ofNat (8 * n) <$> Decoder.nat n) (bytesOfNat n x.toNat ++ rest) = _
    rw [map_apply, nat_append hlt]
    simp [Except.map]

instance : Lossless Bool where
  Fits _ := True
  decoder_encode x _ _ := by cases x <;> rfl

instance : Lossless Char where
  Fits _ := True
  decoder_encode c rest _ := by
    obtain ⟨b, bs, hbytes, hread⟩ := Text.readChar_encode c rest
    change Decoder.char (String.utf8EncodeChar c ++ rest) = _
    rw [hbytes, List.cons_append, Decoder.char, hread]
    rfl

instance : Lossless String where
  Fits s := s.utf8ByteSize < UInt64.size
  decoder_encode s rest h := by
    change (Decoder.length >>= Decoder.text)
      (Wire.encodeLength s.utf8ByteSize ++ Text.bytes s ++ rest) = _
    rw [bind_apply, List.append_assoc, length_append h, ok_bind, text_append]

instance [Wire α] [Lossless α] : Lossless (List α) where
  Fits xs := xs.length < UInt64.size ∧ ∀ x ∈ xs, Fits x
  decoder_encode xs rest h := by
    change (Decoder.length >>= Decoder.times Wire.decoder)
      (Wire.encodeLength xs.length ++ xs.flatMap Wire.encode ++ rest) = _
    rw [bind_apply, List.append_assoc, length_append h.1, ok_bind,
      times_flatMap fun x hx => fun rest => decoder_encode x rest (h.2 x hx)]

instance [Wire α] [Lossless α] : Lossless (Option α) where
  Fits x := ∀ y ∈ x, Fits y
  decoder_encode
    | none, rest, _ => rfl
    | some x, rest, h => by
      change (some <$> (Wire.decoder : Decoder α)) (Wire.encode x ++ rest) = _
      rw [map_apply, decoder_encode x rest (h x rfl)]
      rfl

instance [Wire α] [Wire β] [Lossless α] [Lossless β] : Lossless (α × β) where
  Fits x := Fits x.1 ∧ Fits x.2
  decoder_encode x rest h := by
    change (Wire.decoder >>= fun a => Wire.decoder >>= fun b => pure (a, b))
      (Wire.encode x.1 ++ Wire.encode x.2 ++ rest) = _
    rw [bind_apply, List.append_assoc, decoder_encode x.1 _ h.1, ok_bind, bind_apply,
      decoder_encode x.2 _ h.2]
    rfl

/-- All shapes are lossless. -/
@[reducible]
def ofShape : (s : Shape) → Lossless s.Datum
  | .uint w | .int w => inferInstanceAs (Lossless (BitVec (8 * w.bytes)))
  | .bool => inferInstanceAs (Lossless Bool)
  | .char => inferInstanceAs (Lossless Char)
  | .string => inferInstanceAs (Lossless String)
  | .bytes => inferInstanceAs (Lossless (List UInt8))
  | .option s =>
    letI := ofShape s
    inferInstanceAs (Lossless (Option s.Datum))
  | .pair a b =>
    letI := ofShape a
    letI := ofShape b
    inferInstanceAs (Lossless (a.Datum × b.Datum))
  | .triple a b c =>
    letI := ofShape a
    letI := ofShape b
    letI := ofShape c
    inferInstanceAs (Lossless (a.Datum × b.Datum × c.Datum))

instance (s : Shape) : Lossless s.Datum := ofShape s

end Lossless

/-- The image of a page holds the entries it was made of. -/
theorem Image.entries?_ofEntries {α : Type} [Wire α] [Lossless α] {entries : List α}
    (h : Lossless.Fits entries) (page : Nat) :
    Image.entries? page (Image.ofEntries entries) = .ok entries := by
  have hread := Lossless.decoder_encode entries [] h
  rw [List.append_nil] at hread
  have hlength : ∀ x, (bytesOfNat 4 x).length = 4 := length_bytesOfNat 4
  have hsum : (Checksum.crc32 (Wire.encode entries)).toNat < 256 ^ 4 :=
    (Checksum.crc32 (Wire.encode entries)).toNat_lt
  simp only [Image.entries?, Image.ofEntries, List.drop_left' (hlength _),
    List.take_left' (hlength _), natOfBytes_bytesOfNat hsum]
  rw [if_neg (by simp [hlength])]
  simp [Wire.decode?, StateT.run, hread, Except.mapError]

end PagedMap
