/-!
# Shapes of keys and values

A map is built over a shape for its keys and a shape for its values: fixed-width integers, truth
values, characters, text, byte strings, and options, pairs and triples of those.  `Shape.Datum s`
is the type of the data of shape `s`.

Data of one shape are totally ordered.  Integers order by value, `false` comes before `true`,
text orders by code point and byte strings by byte, a proper initial segment first; `none` comes
before every `some`, and tuples order by their first differing part.  The order is computed by
`Shape.le` and is the instance `≤` on `s.Datum`.
-/

namespace PagedMap

/-- The widths of integers. -/
inductive Width where
  | w8
  | w16
  | w32
  | w64
  | w128
  deriving DecidableEq

/-- The number of bytes of an integer of this width. -/
def Width.bytes : Width → Nat
  | .w8 => 1
  | .w16 => 2
  | .w32 => 4
  | .w64 => 8
  | .w128 => 16

/-- The number of bits of an integer of this width. -/
def Width.bits (w : Width) : Nat := 8 * w.bytes

/-- What a key or a value may look like. -/
inductive Shape where
  | uint (w : Width)
  | int (w : Width)
  | bool
  | char
  | string
  | bytes
  | option (s : Shape)
  | pair (a b : Shape)
  | triple (a b c : Shape)
  deriving DecidableEq

/-- The data of a shape.  An integer is its word of bits, whether it is read with a sign or not. -/
def Shape.Datum : Shape → Type
  | .uint w => BitVec w.bits
  | .int w => BitVec w.bits
  | .bool => Bool
  | .char => Char
  | .string => String
  | .bytes => List UInt8
  | .option s => Option s.Datum
  | .pair a b => a.Datum × b.Datum
  | .triple a b c => a.Datum × b.Datum × c.Datum

/-- Whether two data of a shape are equal is decided part by part. -/
@[reducible]
def Shape.decEqDatum : (s : Shape) → DecidableEq s.Datum
  | .uint w | .int w => inferInstanceAs (DecidableEq (BitVec w.bits))
  | .bool => inferInstanceAs (DecidableEq Bool)
  | .char => inferInstanceAs (DecidableEq Char)
  | .string => inferInstanceAs (DecidableEq String)
  | .bytes => inferInstanceAs (DecidableEq (List UInt8))
  | .option s =>
    letI := s.decEqDatum
    inferInstanceAs (DecidableEq (Option s.Datum))
  | .pair a b =>
    letI := a.decEqDatum
    letI := b.decEqDatum
    inferInstanceAs (DecidableEq (a.Datum × b.Datum))
  | .triple a b c =>
    letI := a.decEqDatum
    letI := b.decEqDatum
    letI := c.decEqDatum
    inferInstanceAs (DecidableEq (a.Datum × b.Datum × c.Datum))

instance (s : Shape) : DecidableEq s.Datum := s.decEqDatum

/-! ## The order -/

namespace Lexicographic

/-- `none` comes first. -/
def option {α : Type} (le : α → α → Bool) : Option α → Option α → Bool
  | none, _ => true
  | some _, none => false
  | some x, some y => le x y

/-- The second parts decide between pairs whose first parts are equal. -/
def pair {α β : Type} (le : α → α → Bool) (le' : β → β → Bool) (x y : α × β) : Bool :=
  le x.1 y.1 && (!le y.1 x.1 || le' x.2 y.2)

/-- The first difference decides, and an initial segment comes before what it starts. -/
def list {α : Type} (le : α → α → Bool) : List α → List α → Bool
  | [], _ => true
  | _ :: _, [] => false
  | x :: xs, y :: ys => le x y && (!le y x || list le xs ys)

end Lexicographic

/-- Whether the first datum is at most the second. -/
def Shape.le : (s : Shape) → s.Datum → s.Datum → Bool
  | .uint _ => BitVec.ule
  | .int _ => BitVec.sle
  | .bool => fun x y => !x || y
  | .char => fun (x y : Char) => decide (x ≤ y)
  | .string => fun (x y : String) => decide (x ≤ y)
  | .bytes => Lexicographic.list fun x y => decide (x ≤ y)
  | .option s => Lexicographic.option s.le
  | .pair a b => Lexicographic.pair a.le b.le
  | .triple a b c => Lexicographic.pair a.le (Lexicographic.pair b.le c.le)

instance (s : Shape) : LE s.Datum := ⟨fun x y => s.le x y = true⟩

instance (s : Shape) : DecidableLE s.Datum :=
  fun x y => inferInstanceAs (Decidable (s.le x y = true))

end PagedMap
