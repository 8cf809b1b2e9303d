import Mathlib
import PagedMap.Proofs.Exact
import PagedMap.Proofs.Mishaps

/-!
# A damaged byte is noticed

The register of the checksum loses nothing: the highest bit after a step tells whether the
polynomial was added, and so what the register was before it (`Checksum.stepBit_injective`).  Two
registers that differ once differ after all bytes that both take in (`Checksum.foldl_injective`),
and they differ after different bytes.  So a change of one byte changes the checksum of the payload,
and a change within the checksum itself leaves it different from that of the payload.

Main statement: `Folder.load_damaged`.
-/

namespace PagedMap

/-! ### The checksum of a changed byte -/

namespace Checksum

/-- What falls out of the register and what is left of it tell what it was. -/
theorem eq_of_shift {r s : UInt32} (hbit : r &&& 1 = s &&& 1) (hrest : r >>> 1 = s >>> 1) :
    r = s := by
  have hlow := congrArg UInt32.toNat hbit
  have hhigh := congrArg UInt32.toNat hrest
  simp only [UInt32.toNat_and, UInt32.toNat_shiftRight] at hlow hhigh
  have hone : (1 : UInt32).toNat = 1 := rfl
  rw [hone, Nat.and_one_is_mod, Nat.and_one_is_mod] at hlow
  simp only [hone, Nat.one_mod, Nat.shiftRight_succ, Nat.shiftRight_zero] at hhigh
  apply UInt32.toNat_inj.1
  omega

/-- The highest bit of a register that was moved right is not set, but that of the polynomial is. -/
theorem shift_ne_xor (r s : UInt32) : r >>> 1 ≠ (s >>> 1) ^^^ 0xEDB88320 := by
  intro h
  have hpoly : (r >>> 1) ^^^ (s >>> 1) = 0xEDB88320 := by
    rw [h, UInt32.xor_comm (s >>> 1), UInt32.xor_assoc, UInt32.xor_self, UInt32.xor_zero]
  have hshift : ∀ t : UInt32, (t >>> 1).toNat < 2 ^ 31 := fun t => by
    have := t.toNat_lt
    rw [UInt32.toNat_shiftRight]
    change t.toNat >>> 1 < _
    rw [Nat.shiftRight_succ, Nat.shiftRight_zero]
    omega
  have hlt := Nat.xor_lt_two_pow (hshift r) (hshift s)
  rw [← UInt32.toNat_xor, hpoly] at hlt
  exact absurd hlt (by decide)

theorem stepBit_injective : Function.Injective stepBit := by
  intro r s h
  have hbit : ∀ t : UInt32, t &&& 1 = 0 ∨ t &&& 1 = 1 := fun t => by
    have hmod := Nat.mod_two_eq_zero_or_one t.toNat
    rw [← Nat.and_one_is_mod] at hmod
    exact hmod.imp (fun h => UInt32.toNat_inj.1 (by rw [UInt32.toNat_and]; exact h))
      fun h => UInt32.toNat_inj.1 (by rw [UInt32.toNat_and]; exact h)
  -- the bit that falls out tells which of the two ways was taken
  unfold stepBit at h
  split at h <;> split at h
  · rename_i hr hs
    exact eq_of_shift (hr.trans hs.symm) h
  · exact absurd h (shift_ne_xor r s)
  · exact absurd h.symm (shift_ne_xor s r)
  · rename_i hr hs
    exact eq_of_shift (((hbit r).resolve_left hr).trans ((hbit s).resolve_left hs).symm)
      ((UInt32.xor_left_inj _).1 h)

/-- A byte that is taken in moves different registers to different ones. -/
theorem stepByte_injective (b : UInt8) : Function.Injective (stepByte · b) := by
  intro r s h
  simp only [stepByte, stepBit_injective.eq_iff] at h
  exact (UInt32.xor_left_inj _).1 h

theorem stepByte_injective_right (r : UInt32) : Function.Injective (stepByte r) := by
  intro b c h
  simp only [stepByte, stepBit_injective.eq_iff] at h
  exact UInt8.toUInt32_inj.1 ((UInt32.xor_right_inj _).1 h)

/-- Registers that differ do so after any bytes. -/
theorem foldl_injective (bs : List UInt8) : Function.Injective (bs.foldl stepByte ·) := by
  induction bs with
  | nil => exact Function.injective_id
  | cons b bs ih => exact ih.comp (stepByte_injective b)

/-- The checksum depends on every byte. -/
theorem crc32_ne {pre post : List UInt8} {b c : UInt8} (h : b ≠ c) :
    crc32 (pre ++ b :: post) ≠ crc32 (pre ++ c :: post) := by
  intro heq
  simp only [crc32, UInt32.not_inj, List.foldl_append, List.foldl_cons] at heq
  exact h (stepByte_injective_right _ (foldl_injective post heq))

end Checksum

/-! ### The image of a page with a changed byte -/

theorem natOfBytes_inj {bs cs : List UInt8} (hlength : bs.length = cs.length)
    (h : natOfBytes bs = natOfBytes cs) : bs = cs := by
  rw [← bytesOfNat_natOfBytes bs, ← bytesOfNat_natOfBytes cs, hlength, h]

theorem xor_ne_self {b mask : UInt8} (h : mask ≠ 0) : b ≠ b ^^^ mask := by
  intro heq
  have hzero : b ^^^ 0 = b ^^^ mask := by rw [UInt8.xor_zero, ← heq]
  exact h ((UInt8.xor_right_inj b).1 hzero).symm

namespace Image

variable {α : Type} [Wire α] {bytes : List UInt8}

/-- The bytes begin with the checksum of those that follow it. -/
structure Checksummed (bytes : List UInt8) : Prop where
  length : 4 ≤ bytes.length
  sum : natOfBytes (bytes.take 4) = (Checksum.crc32 (bytes.drop 4)).toNat

theorem checksummed_ofEntries (entries : List α) : Checksummed (ofEntries entries) := by
  have hlength : ∀ x, (bytesOfNat 4 x).length = 4 := length_bytesOfNat 4
  have hsum : (Checksum.crc32 (Wire.encode entries)).toNat < 256 ^ 4 := UInt32.toNat_lt _
  constructor
  · simp [ofEntries, hlength]
  · rw [ofEntries, List.take_left' (hlength _), List.drop_left' (hlength _),
      natOfBytes_bytesOfNat hsum]

theorem entries?_of_not_checksummed (h : ¬ Checksummed bytes) (page : Nat) :
    entries? page bytes = (.error (.corrupted page) : Except StoreError (List α)) := by
  have hcheck : bytes.length < 4 ∨
      natOfBytes (bytes.take 4) ≠ (Checksum.crc32 (bytes.drop 4)).toNat := by
    by_contra hnot
    rw [not_or, Nat.not_lt, not_not] at hnot
    exact h ⟨hnot.1, hnot.2⟩
  exact if_pos hcheck

/-- A change of one byte, in the checksum or after it, is found out. -/
theorem Checksummed.not_modify (h : Checksummed bytes) {i : Nat} (hi : i < bytes.length)
    {mask : UInt8} (hmask : mask ≠ 0) : ¬ Checksummed (bytes.modify i (· ^^^ mask)) := by
  rintro ⟨-, hsum⟩
  rw [List.take_modify] at hsum
  by_cases hchecksum : i < 4
  · -- in the checksum: the payload stays, and so does the checksum that it has
    rw [List.drop_modify_of_lt _ _ _ _ hchecksum, ← h.sum] at hsum
    have hlt : i < (bytes.take 4).length := by
      rw [List.length_take]
      omega
    obtain ⟨pre, b, post, hbytes, -, hmodify⟩ := List.exists_of_modify (· ^^^ mask) hlt
    have heq := natOfBytes_inj (List.length_modify _ _ _) hsum
    rw [hmodify, hbytes] at heq
    exact xor_ne_self hmask (List.cons.inj (List.append_cancel_left heq)).1.symm
  · -- in the payload: the checksum stays, but the payload has another one now
    have hself : (bytes.take 4).modify i (· ^^^ mask) = bytes.take 4 := by
      refine List.modify_eq_self ?_
      rw [List.length_take]
      omega
    rw [List.drop_modify_of_ge _ _ _ _ (Nat.le_of_not_lt hchecksum), hself, h.sum] at hsum
    have hlt : i - 4 < (bytes.drop 4).length := by
      rw [List.length_drop]
      omega
    obtain ⟨pre, b, post, hbytes, -, hmodify⟩ := List.exists_of_modify (· ^^^ mask) hlt
    rw [hmodify, hbytes] at hsum
    exact Checksum.crc32_ne (xor_ne_self hmask) (UInt32.toNat_inj.1 hsum)

end Image

/-! ### A page with a changed byte -/

namespace Folder

variable {α : Type} [Wire α]

variable {f f' : Folder} {v v' : Volume} {entries : List α} {mishap : Option Mishap} {page : Nat}

theorem create_eq_ok (h : f.create v entries mishap = (.ok page, f', v')) :
    page = f.nextPage ∧ v.IsDirectory f.directory ∧ v' = f.written v (Image.ofEntries entries) := by
  simp only [Folder.create] at h
  generalize hwrite : f.writePage v f.nextPage (Image.ofEntries entries) mishap = out at h
  obtain ⟨r, v''⟩ := out
  rcases writePage_cases hwrite with ⟨cause, rfl, -⟩ | ⟨rfl, hdirectory, -, rfl⟩
  · cases (Prod.mk.inj h).1
  · simp only [Prod.mk.injEq, Except.ok.injEq] at h
    exact ⟨h.1.symm, hdirectory, h.2.2.symm⟩

/-- If creating a page succeeds, its file holds the image of the entries.  Changing any one byte of
the file in any way makes the page be found corrupted, by every folder on the directory. -/
theorem load_damaged (h : f.create v entries mishap = (.ok page, f', v')) :
    v'.read (f.pagePath page) = .ok (Image.ofEntries entries) ∧
      ∀ i < (Image.ofEntries entries).length, ∀ mask ≠ 0, ∃ w,
        v'.write (f.pagePath page) ((Image.ofEntries entries).modify i (· ^^^ mask)) = .ok w ∧
          ∀ g : Folder, g.directory = f.directory →
            g.load w page = (.error (.corrupted page) : Except StoreError (List α)) := by
  obtain ⟨rfl, hdirectory, rfl⟩ := create_eq_ok h
  have hwritten : (f.written v (Image.ofEntries entries)).IsDirectory f.directory :=
    ((hdirectory.put _ _).erase _).put _ _
  have hnode := node?_written f v (Image.ofEntries entries) f.nextPage
  rw [if_pos rfl] at hnode
  refine ⟨Volume.read_of_file (hwritten.reach _) hnode, fun i hi mask hmask => ?_⟩
  set damaged := (Image.ofEntries entries).modify i (· ^^^ mask)
  set w := (f.written v (Image.ofEntries entries)).put (f.pagePath f.nextPage) (.file damaged)
    with hw
  have hdirectory' : w.IsDirectory f.directory := hwritten.put _ _
  have hread : w.read (f.pagePath f.nextPage) = .ok damaged :=
    Volume.read_of_file (hdirectory'.reach _)
      (by rw [hw, Volume.node?_put (by simp [pagePath]), if_pos rfl])
  refine ⟨w, Volume.write_of_ne (hwritten.reach _) (by simp [hnode]), fun g hg => ?_⟩
  have hpath : g.pagePath f.nextPage = f.pagePath f.nextPage := by rw [pagePath, pagePath, hg]
  have hchecksum : ¬ Image.Checksummed damaged :=
    (Image.checksummed_ofEntries entries).not_modify hi hmask
  exact (load_of_read (hpath ▸ hread)).trans (Image.entries?_of_not_checksummed hchecksum _)

/-- A byte of the checksum and the last byte of the payload of a page with one entry. -/
theorem load_damaged_pair :
    let entries : List ((Shape.uint .w8).Datum × Shape.bool.Datum) := [(1#8, true)]
    let f : Folder := ⟨["d"], 3⟩
    let v : Volume := { nodes := [(["d"], .directory)] }
    ∃ v', f.create v entries none = (.ok 3, ⟨["d"], 4⟩, v') ∧
      ∀ i ∈ [0, 13], ∃ w,
        v'.write ["d", "3.page"] ((Image.ofEntries entries).modify i (· ^^^ 128)) = .ok w ∧
          f.load w 3 =
            (.error (.corrupted 3) : Except _
              (List ((Shape.uint .w8).Datum × Shape.bool.Datum))) := by
  intro entries f v
  have hcreate : f.create v entries none = (.ok 3, ⟨["d"], 4⟩, (f.create v entries none).2.2) := by
    have hresult : (f.create v entries none).1 = .ok 3 := by decide +kernel
    have hfolder : (f.create v entries none).2.1 = ⟨["d"], 4⟩ := by decide +kernel
    exact Prod.ext hresult (Prod.ext hfolder rfl)
  have hlength : ∀ i ∈ [0, 13], i < (Image.ofEntries entries).length := by decide +kernel
  refine ⟨_, hcreate, fun i hi => ?_⟩
  obtain ⟨-, hdamaged⟩ := load_damaged hcreate
  obtain ⟨w, hwrite, hload⟩ := hdamaged i (hlength i hi) 128 (by decide)
  exact ⟨w, hwrite, hload f rfl⟩

end Folder

end PagedMap
