import Mathlib
import PagedMap.Text.Utf8

/-!
# Reading back UTF-8

The bytes of a character are read as that character (`readChar_encode`), by cases over the number
of bytes.  So the bytes of a text are read as that text (`ofBytes?_bytes`).

Conversely, bytes that are read as a character are its own (`of_readChar_ok`): a lead byte and the
range of the byte after it leave no second form for a character (`of_lead?`).  So bytes that are
read as a text are its own (`of_ofBytes?`).
-/

namespace PagedMap.Text

theorem continue?_cons {seen code more t : Nat} (rest : List UInt8) (ht : t < 64) :
    continue? seen code (more + 1) (UInt8.ofNat (t + 0x80) :: rest) =
      continue? (seen + 1) (code * 64 + t) more rest := by
  have hnat : (UInt8.ofNat (t + 0x80)).toNat = t + 0x80 := by
    rw [UInt8.toNat_ofNat']
    omega
  have hrange : 0x80 ≤ UInt8.ofNat (t + 0x80) ∧ UInt8.ofNat (t + 0x80) ≤ 0xBF := by
    simp only [UInt8.le_iff_toNat_le, hnat]
    exact ⟨by simp, by simp; omega⟩
  rw [continue?, if_pos hrange, hnat]
  congr 1
  omega

/-- A character of several bytes is read as its lead byte tells. -/
theorem readChar_lead {b : UInt8} {lead : Lead} {t : Nat} (rest : List UInt8) (hb : 0x80 ≤ b.toNat)
    (hlead : lead? b = some lead) (ht : t < 64) (hlow : lead.low.toNat ≤ t + 0x80)
    (hhigh : t + 0x80 ≤ lead.high.toNat) :
    readChar b (UInt8.ofNat (t + 0x80) :: rest) =
      continue? 2 (lead.payload * 64 + t) lead.more rest := by
  have hnat : (UInt8.ofNat (t + 0x80)).toNat = t + 0x80 := by
    rw [UInt8.toNat_ofNat']
    omega
  have hrange : lead.low ≤ UInt8.ofNat (t + 0x80) ∧ UInt8.ofNat (t + 0x80) ≤ lead.high := by
    simp only [UInt8.le_iff_toNat_le, hnat]
    exact ⟨hlow, hhigh⟩
  have hnot : ¬ b < 0x80 := by
    simp only [UInt8.lt_iff_toNat_lt]
    simpa using hb
  simp only [readChar, if_neg hnot, hlead, if_pos hrange, hnat]
  congr 2
  omega

/-- What a lead byte announces, by its number. -/
theorem lead?_ofNat {n : Nat} (hn : n < 256) : lead? (UInt8.ofNat n) =
    if n < 0xC2 then none
    else if n < 0xE0 then some ⟨n - 0xC0, 0x80, 0xBF, 0⟩
    else if n = 0xE0 then some ⟨0, 0xA0, 0xBF, 1⟩
    else if n = 0xED then some ⟨13, 0x80, 0x9F, 1⟩
    else if n < 0xF0 then some ⟨n - 0xE0, 0x80, 0xBF, 1⟩
    else if n = 0xF0 then some ⟨0, 0x90, 0xBF, 2⟩
    else if n < 0xF4 then some ⟨n - 0xF0, 0x80, 0xBF, 2⟩
    else if n = 0xF4 then some ⟨4, 0x80, 0x8F, 2⟩
    else none := by
  have hnat : (UInt8.ofNat n).toNat = n := by
    rw [UInt8.toNat_ofNat']
    exact Nat.mod_eq_of_lt hn
  simp only [lead?, UInt8.lt_iff_toNat_lt, ← UInt8.toNat_inj, hnat]
  rfl

theorem lead?_three {x t : Nat} (hx : x < 16) (ht : t < 64) (hlow : x = 0 → 32 ≤ t)
    (hhigh : x = 13 → t < 32) :
    ∃ lead, lead? (UInt8.ofNat (x + 0xe0)) = some lead ∧ lead.payload = x ∧ lead.more = 1 ∧
      lead.low.toNat ≤ t + 0x80 ∧ t + 0x80 ≤ lead.high.toNat := by
  rw [lead?_ofNat (by omega)]
  by_cases h0 : x = 0
  · exact ⟨⟨0, 0xA0, 0xBF, 1⟩, by simp [h0], h0.symm, rfl, by simp; omega, by simp; omega⟩
  · by_cases h13 : x = 13
    · exact ⟨⟨13, 0x80, 0x9F, 1⟩, by simp [h13], h13.symm, rfl, by simp, by simp; omega⟩
    · refine ⟨⟨x, 0x80, 0xBF, 1⟩, ?_, rfl, rfl, by simp, by simp; omega⟩
      rw [if_neg (by omega), if_neg (by omega), if_neg (by omega), if_neg (by omega),
        if_pos (by omega), Nat.add_sub_cancel]

theorem lead?_four {x t : Nat} (hx : x < 5) (ht : t < 64) (hlow : x = 0 → 16 ≤ t)
    (hhigh : x = 4 → t < 16) :
    ∃ lead, lead? (UInt8.ofNat (x + 0xf0)) = some lead ∧ lead.payload = x ∧ lead.more = 2 ∧
      lead.low.toNat ≤ t + 0x80 ∧ t + 0x80 ≤ lead.high.toNat := by
  rw [lead?_ofNat (by omega)]
  by_cases h0 : x = 0
  · exact ⟨⟨0, 0x90, 0xBF, 2⟩, by simp [h0], h0.symm, rfl, by simp; omega, by simp; omega⟩
  · by_cases h4 : x = 4
    · exact ⟨⟨4, 0x80, 0x8F, 2⟩, by simp [h4], h4.symm, rfl, by simp, by simp; omega⟩
    · refine ⟨⟨x, 0x80, 0xBF, 2⟩, ?_, rfl, rfl, by simp, by simp; omega⟩
      rw [if_neg (by omega), if_neg (by omega), if_neg (by omega), if_neg (by omega),
        if_neg (by omega), if_neg (by omega), if_pos (by omega), Nat.add_sub_cancel]

/-- The bytes of a character are read as that character. -/
theorem readChar_encode (c : Char) (rest : List UInt8) :
    ∃ b bs, String.utf8EncodeChar c = b :: bs ∧ readChar b (bs ++ rest) = .ok (c, rest) := by
  have hvalid : c.val.toNat < 0xd800 ∨ 0xdfff < c.val.toNat ∧ c.val.toNat < 0x110000 := c.valid
  have hchar : Char.ofNat c.val.toNat = c := Char.ofNat_toNat c
  unfold String.utf8EncodeChar
  generalize c.val.toNat = v at *
  by_cases h1 : v ≤ 0x7f
  · have hnat : (UInt8.ofNat v).toNat = v := by
      rw [UInt8.toNat_ofNat']
      omega
    have hlt : UInt8.ofNat v < 0x80 := by
      rw [UInt8.lt_iff_toNat_lt, hnat]
      simpa using by omega
    refine ⟨_, _, if_pos h1, ?_⟩
    rw [readChar, if_pos hlt, hnat, hchar]
    rfl
  by_cases h2 : v ≤ 0x7ff
  · have hx : v / 64 % 32 < 32 := Nat.mod_lt _ (by decide)
    refine ⟨_, _, by simp only [if_neg h1, if_pos h2]; rfl, ?_⟩
    have hlead : lead? (UInt8.ofNat (v / 64 % 0x20 + 0xc0)) =
        some ⟨v / 64 % 32, 0x80, 0xBF, 0⟩ := by
      rw [lead?_ofNat (by omega), if_neg (by omega), if_pos (by omega), Nat.add_sub_cancel]
    rw [List.cons_append, readChar_lead _ (by rw [UInt8.toNat_ofNat']; omega) hlead (by omega)
      (by simp) (by simp; omega)]
    have hcode : v / 64 % 32 * 64 + v % 64 = v := by omega
    simp only [continue?, hcode, hchar, List.nil_append]
  by_cases h3 : v ≤ 0xffff
  · refine ⟨_, _, by simp only [if_neg h1, if_neg h2, if_pos h3]; rfl, ?_⟩
    obtain ⟨lead, hlead, hpayload, hmore, hlow, hhigh⟩ :=
      lead?_three (x := v / 4096 % 16) (t := v / 64 % 64) (by omega) (by omega) (by omega)
        (by omega)
    rw [List.cons_append, readChar_lead _ (by rw [UInt8.toNat_ofNat']; omega) hlead (by omega)
      hlow hhigh, hpayload, hmore, List.cons_append, continue?_cons _ (by omega)]
    have hcode : (v / 4096 % 16 * 64 + v / 64 % 64) * 64 + v % 64 = v := by omega
    simp only [continue?, hcode, hchar, List.nil_append]
  · refine ⟨_, _, by simp only [if_neg h1, if_neg h2, if_neg h3]; rfl, ?_⟩
    obtain ⟨lead, hlead, hpayload, hmore, hlow, hhigh⟩ :=
      lead?_four (x := v / 262144 % 8) (t := v / 4096 % 64) (by omega) (by omega) (by omega)
        (by omega)
    rw [List.cons_append, readChar_lead _ (by rw [UInt8.toNat_ofNat']; omega) hlead (by omega)
      hlow hhigh, hpayload, hmore, List.cons_append, continue?_cons _ (by omega),
      List.cons_append, continue?_cons _ (by omega)]
    have hcode : ((v / 262144 % 8 * 64 + v / 4096 % 64) * 64 + v / 64 % 64) * 64 + v % 64 = v := by
      omega
    simp only [continue?, hcode, hchar, List.nil_append]

theorem readChars_flatMap (start : Nat) (cs : List Char) :
    readChars start (cs.flatMap String.utf8EncodeChar) = .ok cs := by
  induction cs generalizing start with
  | nil => simp [readChars]
  | cons c cs ih =>
    obtain ⟨b, bs, hbytes, hread⟩ := readChar_encode c (cs.flatMap String.utf8EncodeChar)
    rw [List.flatMap_cons, hbytes, List.cons_append, readChars]
    split
    · rename_i fault hfault
      simp [hread] at hfault
    · rename_i c' rest hok
      obtain ⟨rfl, rfl⟩ := Prod.mk.inj (Except.ok.inj (hread.symm.trans hok))
      rw [ih]

/-- The bytes of a text are read as that text. -/
theorem ofBytes?_bytes (s : String) : ofBytes? (bytes s) = .ok s := by
  rw [ofBytes?, bytes, readChars_flatMap]
  simp [Except.map]

theorem length_bytes (s : String) : (bytes s).length = s.utf8ByteSize := by
  have hlist : s = String.ofList s.toList := String.ofList_toList.symm
  conv_rhs => rw [hlist, ← String.size_toByteArray, String.toByteArray_ofList, List.utf8Encode,
    List.size_toByteArray]
  rfl

/-! ## Characters are read from their own bytes only -/

/-- A further byte is the six bits it holds. -/
theorem ofNat_low_bits {b : UInt8} (hlow : 0x80 ≤ b.toNat) (hhigh : b.toNat ≤ 0xBF) :
    UInt8.ofNat (b.toNat % 64 + 0x80) = b := by
  rw [← UInt8.toNat_inj, UInt8.toNat_ofNat']
  omega

theorem of_continue?_succ {seen code more : Nat} {bs rest : List UInt8} {c : Char}
    (h : continue? seen code (more + 1) bs = .ok (c, rest)) :
    ∃ t < 64, ∃ bs', bs = UInt8.ofNat (t + 0x80) :: bs' ∧
      continue? (seen + 1) (code * 64 + t) more bs' = .ok (c, rest) := by
  cases bs with
  | nil => simp [continue?] at h
  | cons b bs =>
    rw [continue?] at h
    split at h
    · rename_i hb
      have hbits := ofNat_low_bits (UInt8.le_iff_toNat_le.mp hb.1) (UInt8.le_iff_toNat_le.mp hb.2)
      exact ⟨b.toNat % 64, Nat.mod_lt _ (by decide), bs, by rw [hbits], h⟩
    · simp at h

/-- A lead byte announces one, two or three further bytes, and the range of the first of them
leaves out what has a shorter form, surrogates, and what is past the last code point. -/
theorem of_lead? {b : UInt8} {lead : Lead} (h : lead? b = some lead) :
    0x80 ≤ lead.low.toNat ∧ lead.high.toNat ≤ 0xBF ∧
      ((lead.more = 0 ∧ b.toNat = lead.payload + 0xC0 ∧ 2 ≤ lead.payload ∧ lead.payload < 32) ∨
       (lead.more = 1 ∧ b.toNat = lead.payload + 0xE0 ∧ lead.payload < 16 ∧
        (lead.payload = 0 → 0xA0 ≤ lead.low.toNat) ∧
        (lead.payload = 13 → lead.high.toNat ≤ 0x9F)) ∨
       (lead.more = 2 ∧ b.toNat = lead.payload + 0xF0 ∧ lead.payload < 5 ∧
        (lead.payload = 0 → 0x90 ≤ lead.low.toNat) ∧
        (lead.payload = 4 → lead.high.toNat ≤ 0x8F))) := by
  have hb : b.toNat < 256 := b.toNat_lt
  rw [← UInt8.ofNat_toNat (x := b), lead?_ofNat hb] at h
  generalize b.toNat = n at *
  -- one case for each row of the table of lead bytes
  split_ifs at h <;> obtain rfl := Option.some.inj h <;>
    refine ⟨by simp, by simp, ?_⟩ <;> simp only
  · exact .inl ⟨trivial, by omega⟩
  · exact .inr (.inl ⟨trivial, by omega, by omega, by simp, by simp⟩)
  · exact .inr (.inl ⟨trivial, by omega, by omega, by simp, by simp⟩)
  · exact .inr (.inl ⟨trivial, by omega, by omega, by omega, by omega⟩)
  · exact .inr (.inr ⟨trivial, by omega, by omega, by simp, by simp⟩)
  · exact .inr (.inr ⟨trivial, by omega, by omega, by omega, by omega⟩)
  · exact .inr (.inr ⟨trivial, by omega, by omega, by simp, by simp⟩)

/-- A character is read off one byte, or off a lead byte, a byte in its range and what follows. -/
theorem of_readChar {b : UInt8} {bs rest : List UInt8} {c : Char}
    (h : readChar b bs = .ok (c, rest)) :
    (b.toNat < 0x80 ∧ c = Char.ofNat b.toNat ∧ rest = bs) ∨
    ∃ lead t bs', lead? b = some lead ∧ t < 64 ∧ bs = UInt8.ofNat (t + 0x80) :: bs' ∧
      lead.low.toNat ≤ t + 0x80 ∧ t + 0x80 ≤ lead.high.toNat ∧
      continue? 2 (lead.payload * 64 + t) lead.more bs' = .ok (c, rest) := by
  rw [readChar] at h
  split at h
  · rename_i hb
    simp only [Except.ok.injEq, Prod.mk.injEq] at h
    exact .inl ⟨UInt8.lt_iff_toNat_lt.mp hb, h.1.symm, h.2.symm⟩
  split at h
  · simp at h
  rename_i lead hlead
  split at h
  · simp at h
  rename_i t bs
  split at h
  · rename_i hrange
    have hlow := UInt8.le_iff_toNat_le.mp hrange.1
    have hhigh := UInt8.le_iff_toNat_le.mp hrange.2
    obtain ⟨hl, hh, -⟩ := of_lead? hlead
    have hbits := ofNat_low_bits (hl.trans hlow) (hhigh.trans hh)
    exact .inr ⟨lead, t.toNat % 64, bs, hlead, Nat.mod_lt _ (by decide), by rw [hbits], by omega,
      by omega, h⟩
  · simp at h

theorem toNat_val_ofNat {n : Nat} (h : n < 0xd800 ∨ 0xdfff < n ∧ n < 0x110000) :
    (Char.ofNat n).val.toNat = n := by
  have hvalid : n.isValidChar := h
  exact (Char.toNat_ofNat n).trans (if_pos hvalid)

theorem encode_one {n : Nat} (hn : n < 0x80) :
    String.utf8EncodeChar (Char.ofNat n) = [UInt8.ofNat n] := by
  simp only [String.utf8EncodeChar, toNat_val_ofNat (.inl (show n < 0xd800 by omega))]
  rw [if_pos (by omega)]

theorem encode_two {x t : Nat} (hlow : 2 ≤ x) (hx : x < 32) (ht : t < 64) :
    String.utf8EncodeChar (Char.ofNat (x * 64 + t)) =
      [UInt8.ofNat (x + 0xc0), UInt8.ofNat (t + 0x80)] := by
  simp only [String.utf8EncodeChar,
    toNat_val_ofNat (.inl (show x * 64 + t < 0xd800 by omega))]
  rw [if_neg (by omega), if_pos (by omega)]
  congr 3 <;> omega

theorem encode_three {x t u : Nat} (hx : x < 16) (ht : t < 64) (hu : u < 64)
    (hlow : x = 0 → 32 ≤ t) (hhigh : x = 13 → t < 32) :
    String.utf8EncodeChar (Char.ofNat ((x * 64 + t) * 64 + u)) =
      [UInt8.ofNat (x + 0xe0), UInt8.ofNat (t + 0x80), UInt8.ofNat (u + 0x80)] := by
  have hvalid : (x * 64 + t) * 64 + u < 0xd800 ∨
      0xdfff < (x * 64 + t) * 64 + u ∧ (x * 64 + t) * 64 + u < 0x110000 := by omega
  have hlead : ((x * 64 + t) * 64 + u) / 4096 % 16 = x := by omega
  have hnext : ((x * 64 + t) * 64 + u) / 64 % 64 = t := by omega
  have hlast : ((x * 64 + t) * 64 + u) % 64 = u := by omega
  simp only [String.utf8EncodeChar, toNat_val_ofNat hvalid]
  rw [if_neg (by omega), if_neg (by omega), if_pos (by omega), hlead, hnext, hlast]

theorem encode_four {x t u v : Nat} (hx : x < 5) (ht : t < 64) (hu : u < 64) (hv : v < 64)
    (hlow : x = 0 → 16 ≤ t) (hhigh : x = 4 → t < 16) :
    String.utf8EncodeChar (Char.ofNat (((x * 64 + t) * 64 + u) * 64 + v)) =
      [UInt8.ofNat (x + 0xf0), UInt8.ofNat (t + 0x80), UInt8.ofNat (u + 0x80),
        UInt8.ofNat (v + 0x80)] := by
  have hvalid : ((x * 64 + t) * 64 + u) * 64 + v < 0xd800 ∨
      0xdfff < ((x * 64 + t) * 64 + u) * 64 + v ∧
        ((x * 64 + t) * 64 + u) * 64 + v < 0x110000 := by omega
  have hlead : (((x * 64 + t) * 64 + u) * 64 + v) / 262144 % 8 = x := by omega
  have hnext : (((x * 64 + t) * 64 + u) * 64 + v) / 4096 % 64 = t := by omega
  have hthird : (((x * 64 + t) * 64 + u) * 64 + v) / 64 % 64 = u := by omega
  have hlast : (((x * 64 + t) * 64 + u) * 64 + v) % 64 = v := by omega
  simp only [String.utf8EncodeChar, toNat_val_ofNat hvalid]
  rw [if_neg (by omega), if_neg (by omega), if_neg (by omega), hlead, hnext, hthird, hlast]

/-- The bytes a character is read off are its own. -/
theorem of_readChar_ok {b : UInt8} {bs rest : List UInt8} {c : Char}
    (h : readChar b bs = .ok (c, rest)) : b :: bs = String.utf8EncodeChar c ++ rest := by
  have hbyte : ∀ n, b.toNat = n → b = UInt8.ofNat n := by
    rintro n rfl
    exact UInt8.ofNat_toNat.symm
  rcases of_readChar h with ⟨hb, rfl, rfl⟩ | ⟨lead, t, bs, hlead, ht, rfl, hlow, hhigh, hrest⟩
  · rw [encode_one hb, UInt8.ofNat_toNat]
    rfl
  obtain ⟨-, -, ⟨hmore, hb, hx⟩ | ⟨hmore, hb, hx, h0, h13⟩ | ⟨hmore, hb, hx, h0, h4⟩⟩ :=
    of_lead? hlead
  · simp only [hmore, continue?, Except.ok.injEq, Prod.mk.injEq] at hrest
    obtain ⟨rfl, rfl⟩ := hrest
    rw [encode_two hx.1 hx.2 ht, hbyte _ hb]
    rfl
  · rw [hmore] at hrest
    obtain ⟨u, hu, us, rfl, hread⟩ := of_continue?_succ hrest
    simp only [continue?, Except.ok.injEq, Prod.mk.injEq] at hread
    obtain ⟨rfl, rfl⟩ := hread
    rw [encode_three hx ht hu (by omega) (by omega), hbyte _ hb]
    rfl
  · rw [hmore] at hrest
    obtain ⟨u, hu, us, rfl, hthird⟩ := of_continue?_succ hrest
    obtain ⟨v, hv, vs, rfl, hread⟩ := of_continue?_succ hthird
    simp only [continue?, Except.ok.injEq, Prod.mk.injEq] at hread
    obtain ⟨rfl, rfl⟩ := hread
    rw [encode_four hx ht hu hv (by omega) (by omega), hbyte _ hb]
    rfl

theorem of_readChars {start : Nat} {bs : List UInt8} {cs : List Char}
    (h : readChars start bs = .ok cs) : bs = cs.flatMap String.utf8EncodeChar := by
  fun_induction readChars start bs generalizing cs with
  | case1 => simp_all
  | case2 => simp at h
  | case3 => simp at h
  | case4 start b bs c rest hread cs hrest ih =>
    obtain rfl := Except.ok.inj h
    rw [of_readChar_ok hread, List.flatMap_cons, ih hrest]

/-- Bytes that are read as a text are its own. -/
theorem of_ofBytes? {bs : List UInt8} {s : String} (h : ofBytes? bs = .ok s) : bs = bytes s := by
  rw [ofBytes?] at h
  cases hread : readChars 0 bs with
  | error e => simp [hread, Except.map] at h
  | ok cs =>
    rw [hread] at h
    obtain rfl := Except.ok.inj h
    rw [bytes, String.toList_ofList]
    exact of_readChars hread

end PagedMap.Text
