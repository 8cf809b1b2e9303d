import PagedMap.Shape

/-!
# Estimated sizes

The size of a datum is the number of bytes it is charged with in a block.  An integer weighs its
width, a truth value 1 and a character 4, whatever they hold; text weighs the bytes of its UTF-8
form and a byte string its length.  An absent option weighs nothing, a present one what it holds,
and a tuple the sum of its parts.
-/

namespace PagedMap

/-- Data whose number of bytes in a block can be estimated. -/
class Sized (α : Type) where
  /-- The estimated number of bytes. -/
  size : α → Nat

namespace Sized

variable {α β : Type}

instance (n : Nat) : Sized (BitVec n) := ⟨fun _ => n / 8⟩

instance : Sized Bool := ⟨fun _ => 1⟩

instance : Sized Char := ⟨fun _ => 4⟩

instance : Sized String := ⟨String.utf8ByteSize⟩

instance : Sized (List UInt8) := ⟨List.length⟩

instance [Sized α] : Sized (Option α) := ⟨fun x => (x.map size).getD 0⟩

instance [Sized α] [Sized β] : Sized (α × β) := ⟨fun x => size x.1 + size x.2⟩

/-- The sizes of the data of a shape. -/
@[reducible]
def ofShape : (s : Shape) → Sized s.Datum
  | .uint w | .int w => inferInstanceAs (Sized (BitVec w.bits))
  | .bool => inferInstanceAs (Sized Bool)
  | .char => inferInstanceAs (Sized Char)
  | .string => inferInstanceAs (Sized String)
  | .bytes => inferInstanceAs (Sized (List UInt8))
  | .option s =>
    letI := ofShape s
    inferInstanceAs (Sized (Option s.Datum))
  | .pair a b =>
    letI := ofShape a
    letI := ofShape b
    inferInstanceAs (Sized (a.Datum × b.Datum))
  | .triple a b c =>
    letI := ofShape a
    letI := ofShape b
    letI := ofShape c
    inferInstanceAs (Sized (a.Datum × b.Datum × c.Datum))

instance (s : Shape) : Sized s.Datum := ofShape s

end Sized

end PagedMap
