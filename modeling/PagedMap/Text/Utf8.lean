import PagedMap.Error

/-!
# Reading UTF-8

The bytes of a text are read one character at a time.  A byte below 128 is a character by itself;
any other character has a lead byte, which tells how many bytes follow and in which range the
first of them lies (`Lead`), and every further byte lies between 128 and 191.  The ranges leave
out overlong forms, surrogates, and code points past the last one.

A fault names the longest run of bytes that could still have become a character.
-/

namespace PagedMap.Text

/-- What a lead byte announces. -/
structure Lead where
  /-- The bits of the code point that the lead byte holds. -/
  payload : Nat
  /-- The least value of the second byte. -/
  low : UInt8
  /-- The greatest value of the second byte. -/
  high : UInt8
  /-- The number of bytes after the second. -/
  more : Nat

/-- What the byte announces, if it starts a character of several bytes. -/
def lead? (b : UInt8) : Option Lead :=
  if b < 0xC2 then none
  else if b < 0xE0 then some ⟨b.toNat - 0xC0, 0x80, 0xBF, 0⟩
  else if b = 0xE0 then some ⟨0, 0xA0, 0xBF, 1⟩
  else if b = 0xED then some ⟨13, 0x80, 0x9F, 1⟩
  else if b < 0xF0 then some ⟨b.toNat - 0xE0, 0x80, 0xBF, 1⟩
  else if b = 0xF0 then some ⟨0, 0x90, 0xBF, 2⟩
  else if b < 0xF4 then some ⟨b.toNat - 0xF0, 0x80, 0xBF, 2⟩
  else if b = 0xF4 then some ⟨4, 0x80, 0x8F, 2⟩
  else none

/-- Reads `more` bytes of a character of which `seen` bytes, worth `code`, have been read. -/
def continue? (seen code : Nat) : (more : Nat) → List UInt8 → Except Utf8Fault (Char × List UInt8)
  | 0, rest => .ok (Char.ofNat code, rest)
  | _ + 1, [] => .error .incomplete
  | more + 1, b :: rest =>
    if 0x80 ≤ b ∧ b ≤ 0xBF then continue? (seen + 1) (code * 64 + b.toNat % 64) more rest
    else .error (.invalid seen)

/-- Reads the character that starts with the byte `b`. -/
def readChar (b : UInt8) (rest : List UInt8) : Except Utf8Fault (Char × List UInt8) :=
  if b < 0x80 then .ok (Char.ofNat b.toNat, rest)
  else match lead? b with
    | none => .error (.invalid 1)
    | some lead =>
      match rest with
      | [] => .error .incomplete
      | c :: rest =>
        if lead.low ≤ c ∧ c ≤ lead.high then
          continue? 2 (lead.payload * 64 + c.toNat % 64) lead.more rest
        else .error (.invalid 1)

theorem length_continue?_le {seen code more : Nat} {bs rest : List UInt8} {c : Char}
    (h : continue? seen code more bs = .ok (c, rest)) : rest.length ≤ bs.length := by
  induction more generalizing seen code bs with
  | zero =>
    simp only [continue?, Except.ok.injEq, Prod.mk.injEq] at h
    simp [h.2]
  | succ more ih =>
    cases bs with
    | nil => simp [continue?] at h
    | cons b bs =>
      simp only [continue?] at h
      split at h
      · have := ih h
        simp only [List.length_cons]
        omega
      · simp at h

/-- What follows a character is no longer than what followed its first byte. -/
theorem length_readChar_le {b : UInt8} {bs rest : List UInt8} {c : Char}
    (h : readChar b bs = .ok (c, rest)) : rest.length ≤ bs.length := by
  unfold readChar at h
  split at h
  · simp only [Except.ok.injEq, Prod.mk.injEq] at h
    simp [h.2]
  · split at h
    · simp at h
    · split at h
      · simp at h
      · split at h
        · have := length_continue?_le h
          simp only [List.length_cons]
          omega
        · simp at h

/-- Reads all bytes as characters.  An error tells how many bytes are good and what follows
them; `start` is the number of bytes read before. -/
def readChars (start : Nat) (bs : List UInt8) : Except (Nat × Utf8Fault) (List Char) :=
  match bs with
  | [] => .ok []
  | b :: bs =>
    match _read : readChar b bs with
    | .error fault => .error (start, fault)
    | .ok (c, rest) =>
      match readChars (start + (bs.length + 1 - rest.length)) rest with
      | .error e => .error e
      | .ok cs => .ok (c :: cs)
termination_by bs.length
decreasing_by
  have := length_readChar_le _read
  simp only [List.length_cons]
  omega

/-- The bytes of a text. -/
def bytes (s : String) : List UInt8 := s.toList.flatMap String.utf8EncodeChar

/-- The text with these bytes. -/
def ofBytes? (bs : List UInt8) : Except (Nat × Utf8Fault) String :=
  (readChars 0 bs).map String.ofList

end PagedMap.Text
