/-!
# Reactive.Checksum — CRC-32

The cyclic redundancy check of ISO-HDLC: the reflected polynomial `0xEDB88320`, all bits set at the start and inverted
at the end.
-/

namespace Reactive.Checksum

/-- The remainder after `n` more bits. -/
def shiftBits : Nat → UInt32 → UInt32
  | 0, r => r
  | n + 1, r => shiftBits n (if r &&& 1 = 1 then (r >>> 1) ^^^ 0xEDB88320 else r >>> 1)

/-- The remainder after one more byte. -/
def step (r : UInt32) (b : UInt8) : UInt32 := shiftBits 8 (r ^^^ b.toUInt32)

/-- The checksum of bytes. -/
def crc32 (bytes : List UInt8) : UInt32 := (bytes.foldl step 0xFFFFFFFF) ^^^ 0xFFFFFFFF

example : crc32 "123456789".toUTF8.toList = 0xCBF43926 := by decide +kernel

/-- The checksum of the UTF-8 bytes of a text. -/
def ofText (s : String) : UInt32 := (s.toUTF8.foldl step 0xFFFFFFFF) ^^^ 0xFFFFFFFF

end Reactive.Checksum
