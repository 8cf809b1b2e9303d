/-!
# The checksum of a page

CRC-32 with the reversed polynomial `0xEDB88320`: the register starts with all bits set, takes in
the bytes from the first to the last, each from its lowest bit, and is complemented at the end.
One bit moves the register right by one place and adds the polynomial if a set bit falls out.
-/

namespace PagedMap.Checksum

/-- The register after one more bit. -/
def stepBit (r : UInt32) : UInt32 :=
  if r &&& 1 = 0 then r >>> 1 else (r >>> 1) ^^^ 0xEDB88320

/-- The register after eight more bits. -/
def stepByte (r : UInt32) (b : UInt8) : UInt32 :=
  stepBit (stepBit (stepBit (stepBit (stepBit (stepBit (stepBit (stepBit (r ^^^ b.toUInt32))))))))

/-- The checksum of the bytes. -/
def crc32 (bs : List UInt8) : UInt32 := ~~~ bs.foldl stepByte 0xFFFFFFFF

end PagedMap.Checksum
