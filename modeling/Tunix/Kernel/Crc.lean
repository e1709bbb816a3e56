import Tunix.ForStd.Bytes

/-!
# Checksums

Model of `kernel/lib/crc.c`. The tables are the functions that `build_tables` tabulates and
the sums run over the first `length` bytes of a buffer. `crc32c` is the byte loop; the source
also takes eight bytes at a time with sliced tables, which computes the same sum.
-/

namespace Tunix.Crc

open Bytes (Buffer)

/-- One bit of the reflected table: shift out the low bit, fold the polynomial in if it was
    set. -/
def crc32cBit (value : UInt32) : UInt32 :=
  (value >>> 1) ^^^ ((0x82F63B78 : UInt32) &&& ((0 : UInt32) - (value &&& 1)))

/-- The entry of the table of `crc32c` for a byte. -/
def crc32cTable (byte : UInt32) : UInt32 := crc32cBit^[8] byte

/-- One bit of the checksum with the highest bit first. -/
def crc32BeBit (be : UInt32) : UInt32 :=
  (be <<< 1) ^^^ ((0x04C11DB7 : UInt32) &&& ((0 : UInt32) - (be >>> 31)))

/-- The entry of the table of `crc32_be` for a byte. -/
def crc32BeTable (byte : UInt32) : UInt32 := crc32BeBit^[8] (byte <<< 24)

/-- One byte of `crc32c`. -/
def crc32cByte (crc : UInt32) (byte : UInt8) : UInt32 :=
  (crc >>> 8) ^^^ crc32cTable ((crc ^^^ byte.toUInt32) &&& 0xFF)

/-- One byte of `crc32_be`. -/
def crc32BeByte (crc : UInt32) (byte : UInt8) : UInt32 :=
  (crc <<< 8) ^^^ crc32BeTable (((crc >>> 24) ^^^ byte.toUInt32) &&& 0xFF)

/-- `crc32c(crc, data, length)`. -/
def crc32c (crc : UInt32) (data : Buffer) (length : Nat) : UInt32 :=
  (List.range length).foldl (fun crc i => crc32cByte crc (data i)) crc

/-- `crc32_be(crc, data, length)`. -/
def crc32Be (crc : UInt32) (data : Buffer) (length : Nat) : UInt32 :=
  (List.range length).foldl (fun crc i => crc32BeByte crc (data i)) crc

end Tunix.Crc
