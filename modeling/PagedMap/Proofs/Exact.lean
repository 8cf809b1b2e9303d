import Mathlib
import PagedMap.Proofs.Codec
import PagedMap.Snapshot

/-!
# Nothing else is read

An encoding is exact (`Exact`) if bytes that are read as a datum start with the encoding of that
datum, and what is left is what follows it.  So a datum has one encoding only, and bytes that
encode nothing are refused.  All shapes are exact, and so are snapshots.
-/

namespace PagedMap

theorem natOfBytes_lt (bs : List UInt8) : natOfBytes bs < 256 ^ bs.length := by
  induction bs with
  | nil => simp [natOfBytes]
  | cons b bs ih =>
    have hb : b.toNat < 256 := b.toNat_lt
    unfold natOfBytes at ih ⊢
    rw [List.foldr_cons, List.length_cons, Nat.pow_succ]
    omega

theorem bytesOfNat_natOfBytes (bs : List UInt8) : bytesOfNat bs.length (natOfBytes bs) = bs := by
  induction bs with
  | nil => rfl
  | cons b bs ih =>
    have hb : b.toNat < 256 := b.toNat_lt
    have hdiv : natOfBytes (b :: bs) / 256 = natOfBytes bs := by
      change (b.toNat + 256 * natOfBytes bs) / 256 = _
      omega
    have hmod : UInt8.ofNat (natOfBytes (b :: bs)) = b := by
      rw [← UInt8.toNat_inj, UInt8.toNat_ofNat']
      change (b.toNat + 256 * natOfBytes bs) % 256 = _
      omega
    rw [List.length_cons, bytesOfNat, hdiv, hmod, ih]

/-- Data that are read off the front of their encoding only. -/
class Exact (α : Type) [Wire α] [Lossless α] : Prop where
  of_decoder {x : α} {bs rest : List UInt8} (h : Wire.decoder bs = .ok (x, rest)) :
    Lossless.Fits x ∧ bs = Wire.encode x ++ rest

namespace Decoder

variable {α β : Type} {bs rest : List UInt8}

theorem of_bind {r : Decoder α} {f : α → Decoder β} {y : β} (h : (r >>= f) bs = .ok (y, rest)) :
    ∃ x mid, r bs = .ok (x, mid) ∧ f x mid = .ok (y, rest) := by
  rw [bind_apply] at h
  cases hr : r bs with
  | error e => simp [hr, bind, Except.bind] at h
  | ok p => exact ⟨p.1, p.2, rfl, by simpa [hr] using h⟩

theorem of_map {r : Decoder α} {f : α → β} {y : β} (h : (f <$> r) bs = .ok (y, rest)) :
    ∃ x, r bs = .ok (x, rest) ∧ f x = y := by
  rw [map_apply] at h
  cases hr : r bs with
  | error e => simp [hr, Except.map] at h
  | ok p =>
    simp only [hr, Except.map, Except.ok.injEq, Prod.mk.injEq] at h
    exact ⟨p.1, by rw [← h.2], h.1⟩

theorem of_pure {x y : α} (h : (pure x : Decoder α) bs = .ok (y, rest)) : x = y ∧ bs = rest := by
  simpa using h

theorem of_byte {b : UInt8} (h : byte bs = .ok (b, rest)) : bs = b :: rest := by
  cases bs with
  | nil => simp [byte] at h
  | cons c bs =>
    simp only [byte_cons, Except.ok.injEq, Prod.mk.injEq] at h
    rw [h.1, h.2]

theorem of_times {read : Decoder α} {encode : α → List UInt8} {P : α → Prop}
    (hread : ∀ {x bs rest}, read bs = .ok (x, rest) → P x ∧ bs = encode x ++ rest) {n : Nat}
    {xs : List α} (h : times read n bs = .ok (xs, rest)) :
    xs.length = n ∧ (∀ x ∈ xs, P x) ∧ bs = xs.flatMap encode ++ rest := by
  induction n generalizing bs xs with
  | zero =>
    obtain ⟨rfl, rfl⟩ := of_pure h
    simp
  | succ n ih =>
    obtain ⟨x, mid, hx, h⟩ := of_bind h
    obtain ⟨ys, mid', hys, h⟩ := of_bind h
    obtain ⟨rfl, rfl⟩ := of_pure h
    obtain ⟨hP, rfl⟩ := hread hx
    obtain ⟨hlength, hall, rfl⟩ := ih hys
    exact ⟨by simp [hlength], by simpa using ⟨hP, hall⟩, by simp⟩

theorem of_times_byte {n : Nat} {cs : List UInt8} (h : times byte n bs = .ok (cs, rest)) :
    cs.length = n ∧ bs = cs ++ rest := by
  have hread {c : UInt8} {bs rest : List UInt8} (h : byte bs = .ok (c, rest)) :
      True ∧ bs = [c] ++ rest := ⟨trivial, of_byte h⟩
  obtain ⟨hlength, -, hbs⟩ := of_times hread h
  exact ⟨hlength, by simpa using hbs⟩

theorem of_nat {n x : Nat} (h : nat n bs = .ok (x, rest)) :
    x < 256 ^ n ∧ bs = bytesOfNat n x ++ rest := by
  obtain ⟨cs, hcs, rfl⟩ := of_map h
  obtain ⟨rfl, rfl⟩ := of_times_byte hcs
  exact ⟨natOfBytes_lt cs, by rw [bytesOfNat_natOfBytes]⟩

theorem of_length {n : Nat} (h : length bs = .ok (n, rest)) :
    n < UInt64.size ∧ bs = Wire.encodeLength n ++ rest := of_nat h

theorem of_text {n : Nat} {s : String} (h : text n bs = .ok (s, rest)) :
    n = s.utf8ByteSize ∧ bs = Text.bytes s ++ rest := by
  obtain ⟨cs, mid, hcs, h⟩ := of_bind h
  cases htext : Text.ofBytes? cs with
  | error e =>
    rw [htext] at h
    cases h
  | ok s' =>
    rw [htext] at h
    obtain ⟨rfl, rfl⟩ := of_pure h
    rw [textBytes] at hcs
    split at hcs
    · rename_i r hr
      obtain rfl := Except.ok.inj hcs
      obtain ⟨rfl, rfl⟩ := of_times_byte hr
      rw [Text.of_ofBytes? htext, Text.length_bytes]
      exact ⟨rfl, rfl⟩
    · simp at hcs

end Decoder

namespace Exact

variable {α β : Type}

open Decoder

instance : Exact UInt8 where
  of_decoder h := ⟨trivial, of_byte h⟩

instance (n : Nat) : Exact (BitVec (8 * n)) where
  of_decoder {x bs rest} h := by
    obtain ⟨m, hm, rfl⟩ := of_map h
    obtain ⟨hlt, rfl⟩ := of_nat hm
    refine ⟨trivial, ?_⟩
    change _ = bytesOfNat n (BitVec.ofNat (8 * n) m).toNat ++ rest
    rw [BitVec.toNat_ofNat, Nat.mod_eq_of_lt (by rwa [Nat.pow_mul])]

instance : Exact Bool where
  of_decoder {x bs rest} h := by
    obtain ⟨b, mid, hb, hx⟩ := of_bind h
    obtain rfl := of_byte hb
    split at hx
    · obtain ⟨rfl, rfl⟩ := of_pure hx
      exact ⟨trivial, rfl⟩
    · obtain ⟨rfl, rfl⟩ := of_pure hx
      exact ⟨trivial, rfl⟩
    · cases hx

instance : Exact Char where
  of_decoder {c bs rest} h := by
    change Decoder.char bs = _ at h
    cases bs with
    | nil => simp [Decoder.char] at h
    | cons b bs =>
      cases hread : Text.readChar b bs with
      | error e => simp [Decoder.char, hread, Except.mapError] at h
      | ok p =>
        simp only [Decoder.char, hread, Except.mapError, Except.ok.injEq] at h
        subst h
        exact ⟨trivial, Text.of_readChar_ok hread⟩

instance : Exact String where
  of_decoder {s bs rest} h := by
    obtain ⟨n, mid, hn, hs⟩ := of_bind h
    obtain ⟨hlt, rfl⟩ := of_length hn
    obtain ⟨rfl, rfl⟩ := of_text hs
    exact ⟨hlt, (List.append_assoc _ _ _).symm⟩

instance [Wire α] [Lossless α] [Exact α] : Exact (List α) where
  of_decoder {xs bs rest} h := by
    obtain ⟨n, mid, hn, hxs⟩ := of_bind h
    obtain ⟨hlt, rfl⟩ := of_length hn
    obtain ⟨rfl, hall, rfl⟩ := of_times of_decoder hxs
    exact ⟨⟨hlt, hall⟩, (List.append_assoc _ _ _).symm⟩

instance [Wire α] [Lossless α] [Exact α] : Exact (Option α) where
  of_decoder {x bs rest} h := by
    obtain ⟨b, mid, hb, hx⟩ := of_bind h
    obtain rfl := of_byte hb
    split at hx
    · obtain ⟨rfl, rfl⟩ := of_pure hx
      exact ⟨nofun, rfl⟩
    · obtain ⟨y, hy, rfl⟩ := of_map hx
      obtain ⟨hfits, rfl⟩ := of_decoder hy
      refine ⟨?_, rfl⟩
      rintro _ ⟨⟩
      exact hfits
    · cases hx

instance [Wire α] [Wire β] [Lossless α] [Lossless β] [Exact α] [Exact β] : Exact (α × β) where
  of_decoder {x bs rest} h := by
    obtain ⟨a, mid, ha, h⟩ := of_bind h
    obtain ⟨b, mid', hb, h⟩ := of_bind h
    obtain ⟨rfl, rfl⟩ := of_pure h
    obtain ⟨hfits, rfl⟩ := of_decoder ha
    obtain ⟨hfits', rfl⟩ := of_decoder hb
    exact ⟨⟨hfits, hfits'⟩, (List.append_assoc _ _ _).symm⟩

theorem ofShape : (s : Shape) → Exact s.Datum
  | .uint w | .int w => inferInstanceAs (Exact (BitVec (8 * w.bytes)))
  | .bool => inferInstanceAs (Exact Bool)
  | .char => inferInstanceAs (Exact Char)
  | .string => inferInstanceAs (Exact String)
  | .bytes => inferInstanceAs (Exact (List UInt8))
  | .option s =>
    letI := ofShape s
    inferInstanceAs (Exact (Option s.Datum))
  | .pair a b =>
    letI := ofShape a
    letI := ofShape b
    inferInstanceAs (Exact (a.Datum × b.Datum))
  | .triple a b c =>
    letI := ofShape a
    letI := ofShape b
    letI := ofShape c
    inferInstanceAs (Exact (a.Datum × b.Datum × c.Datum))

instance (s : Shape) : Exact s.Datum := ofShape s

/-! ## Snapshots -/

variable {K : Type} [Wire K]

instance [Lossless K] : Lossless (BlockInfo K) where
  Fits b := Lossless.Fits b.firstKey ∧ Lossless.Fits b.lastKey ∧ b.id < UInt64.size ∧
    b.size < UInt64.size ∧ b.page < UInt64.size
  decoder_encode b rest h := by
    obtain ⟨hfirst, hlast, hid, hsize, hpage⟩ := h
    change (Wire.decoder >>= fun firstKey => Wire.decoder >>= fun lastKey => Decoder.nat 8 >>=
      fun id => Decoder.nat 8 >>= fun size => Decoder.nat 8 >>= fun page =>
        pure (BlockInfo.mk firstKey lastKey id size page))
      (Wire.encode b.firstKey ++ Wire.encode b.lastKey ++
        (bytesOfNat 8 b.id ++ bytesOfNat 8 b.size ++ bytesOfNat 8 b.page) ++ rest) = _
    simp only [List.append_assoc, bind_apply, Lossless.decoder_encode _ _ hfirst,
      Lossless.decoder_encode _ _ hlast, nat_append (n := 8) hid,
      nat_append (n := 8) hsize, nat_append (n := 8) hpage, ok_bind, pure_apply]

instance [Lossless K] [Exact K] : Exact (BlockInfo K) where
  of_decoder {b bs rest} h := by
    obtain ⟨firstKey, _, hfirst, h⟩ := of_bind h
    obtain ⟨lastKey, _, hlast, h⟩ := of_bind h
    obtain ⟨id, _, hid, h⟩ := of_bind h
    obtain ⟨size, _, hsize, h⟩ := of_bind h
    obtain ⟨page, _, hpage, h⟩ := of_bind h
    obtain ⟨rfl, rfl⟩ := of_pure h
    obtain ⟨hfits, rfl⟩ := of_decoder hfirst
    obtain ⟨hfits', rfl⟩ := of_decoder hlast
    obtain ⟨hidLt, rfl⟩ := of_nat hid
    obtain ⟨hsizeLt, rfl⟩ := of_nat hsize
    obtain ⟨hpageLt, rfl⟩ := of_nat hpage
    refine ⟨⟨hfits, hfits', hidLt, hsizeLt, hpageLt⟩, ?_⟩
    change _ = Wire.encode firstKey ++ Wire.encode lastKey ++
      (bytesOfNat 8 id ++ bytesOfNat 8 size ++ bytesOfNat 8 page) ++ _
    simp only [List.append_assoc]

instance [Lossless K] : Lossless (Snapshot K) where
  Fits s := Lossless.Fits s.blocks
  decoder_encode s rest h := by
    change (Snapshot.mk <$> Wire.decoder) (Wire.encode s.blocks ++ rest) = _
    rw [map_apply, Lossless.decoder_encode s.blocks rest h]
    rfl

instance [Lossless K] [Exact K] : Exact (Snapshot K) where
  of_decoder {s bs rest} h := by
    obtain ⟨blocks, hblocks, rfl⟩ := of_map h
    exact of_decoder (α := List (BlockInfo K)) hblocks

end Exact

/-! ## What is read -/

section

variable {α : Type} [Wire α] [Lossless α] [Exact α]

/-- A datum is read off the bytes that start with its encoding, and what follows is left. -/
theorem Wire.decoder_eq_ok_iff {x : α} {bs rest : List UInt8} :
    Wire.decoder bs = .ok (x, rest) ↔ Lossless.Fits x ∧ bs = Wire.encode x ++ rest := by
  constructor
  · exact Exact.of_decoder
  · rintro ⟨h, rfl⟩
    exact Lossless.decoder_encode x rest h

theorem Wire.decode?_eq_ok_iff {x : α} {bs : List UInt8} :
    Wire.decode? bs = .ok x ↔ Lossless.Fits x ∧ Wire.encode x <+: bs := by
  constructor
  · intro h
    cases hread : (Wire.decoder : Decoder α).run bs with
    | error e =>
      rw [Wire.decode?, hread] at h
      cases h
    | ok p =>
      rw [Wire.decode?, hread] at h
      obtain rfl := Except.ok.inj h
      obtain ⟨hfits, rfl⟩ := Wire.decoder_eq_ok_iff.mp hread
      exact ⟨hfits, List.prefix_append _ _⟩
  · rintro ⟨h, rest, rfl⟩
    change Prod.fst <$> (Wire.decoder : Decoder α) (Wire.encode x ++ rest) = _
    rw [Lossless.decoder_encode x rest h]
    rfl

/-- The file of a page is read as these entries iff it is the checksum of a payload, then the
payload, and the payload starts with the encoding of the entries. -/
theorem Image.entries?_eq_ok_iff {page : Nat} {bytes : List UInt8} {entries : List α} :
    Image.entries? page bytes = .ok entries ↔
      ∃ payload, bytes = bytesOfNat 4 (Checksum.crc32 payload).toNat ++ payload ∧
        Lossless.Fits entries ∧ Wire.encode entries <+: payload := by
  have hlength : ∀ x, (bytesOfNat 4 x).length = 4 := length_bytesOfNat 4
  constructor
  · intro h
    simp only [Image.entries?] at h
    split at h
    · cases h
    · rename_i hsum
      rw [not_or, not_not, not_lt] at hsum
      have hsumBytes := bytesOfNat_natOfBytes (bytes.take 4)
      rw [List.length_take_of_le hsum.1] at hsumBytes
      refine ⟨bytes.drop 4, ?_, ?_⟩
      · rw [← hsum.2, hsumBytes, List.take_append_drop]
      · cases hread : (Wire.decode? (bytes.drop 4) : Except DecodeError (List α)) with
        | error e =>
          rw [hread] at h
          cases h
        | ok xs =>
          rw [hread] at h
          obtain rfl := Except.ok.inj h
          exact Wire.decode?_eq_ok_iff.mp hread
  · rintro ⟨payload, rfl, hread⟩
    have hsum : (Checksum.crc32 payload).toNat < 256 ^ 4 := (Checksum.crc32 payload).toNat_lt
    simp only [Image.entries?, List.drop_left' (hlength _), List.take_left' (hlength _),
      natOfBytes_bytesOfNat hsum]
    rw [if_neg (by simp [hlength]), Wire.decode?_eq_ok_iff.mpr hread]
    rfl

end

/-- The encodings of pages and of snapshots are exact, over all shapes of keys and values: bytes are
read as a list of entries, or as a snapshot, iff they start with its encoding. -/
theorem Wire.decode?_page_and_snapshot (k v : Shape) (bs : List UInt8) :
    (∀ entries : List (k.Datum × v.Datum),
      Wire.decode? bs = .ok entries ↔ Lossless.Fits entries ∧ Wire.encode entries <+: bs) ∧
    (∀ snapshot : Snapshot k.Datum,
      Wire.decode? bs = .ok snapshot ↔
        Lossless.Fits snapshot ∧ Wire.encode snapshot <+: bs) :=
  ⟨fun _ => decode?_eq_ok_iff, fun _ => decode?_eq_ok_iff⟩

end PagedMap
