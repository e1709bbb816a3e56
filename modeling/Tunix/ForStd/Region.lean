import Tunix.ForStd.Bits

/-!
# Memory of a given size

A region is a buffer with a size. A copy into it or out of it is defined only where it stays inside,
so that a program whose accesses are copies of this kind has an access outside exactly where it has
no result.
-/

namespace Bytes

structure Region where
  size : Nat
  bytes : Buffer

/-- The `n` bytes of a buffer from `off` on. -/
def slice (b : Buffer) (off n : Nat) : List UInt8 := (List.range n).map fun i => b (off + i)

variable (b : Buffer) (source : List UInt8)

/-- A slice has the length that was asked for. -/
@[simp] theorem length_slice (b : Buffer) (off n : Nat) : (slice b off n).length = n := by
  simp [slice]

/-- A byte of a slice. -/
theorem slice_getElem? (off : Nat) {n i : Nat} (h : i < n) :
    (slice b off n)[i]? = some (b (off + i)) := by
  simp [slice, h]

/-- A buffer with a list of bytes copied to an offset. -/
def overlay (b : Buffer) (off : Nat) (source : List UInt8) : Buffer := fun i =>
  if i < off then b i else source.getD (i - off) (b i)

/-- Bytes before the overlay stay. -/
theorem overlay_of_lt {off i : Nat} (h : i < off) : overlay b off source i = b i := if_pos h

/-- Bytes behind the overlay stay. -/
theorem overlay_of_ge {off i : Nat} (h : off + source.length ≤ i) :
    overlay b off source i = b i := by
  unfold overlay
  rw [if_neg (by omega), List.getD_eq_getElem?_getD, List.getElem?_eq_none (by omega)]
  rfl

/-- Bytes of the overlay are those of the source. -/
theorem overlay_of_mem (off i : Nat) (source : List UInt8) (h : off ≤ i)
    (hlt : i < off + source.length) : source[i - off]? = some (overlay b off source i) := by
  unfold overlay
  rw [if_neg (by omega), List.getD_eq_getElem?_getD, List.getElem?_eq_getElem (by omega)]
  rfl

namespace Region

/-- `memcpy` into the region. -/
def copyIn (r : Region) (off : Nat) (source : List UInt8) : Option Region :=
  if off + source.length ≤ r.size then some { r with bytes := overlay r.bytes off source } else none

/-- `memcpy` out of the region. -/
def copyOut (r : Region) (off n : Nat) : Option (List UInt8) :=
  if off + n ≤ r.size then some (slice r.bytes off n) else none

/-- A bit of a bitmap is set. -/
def setBit (r : Region) (bit : Nat) : Option Region :=
  if bit / 8 < r.size then some { r with bytes := bitSet r.bytes bit } else none

/-- A copy into a region that has room for it. -/
theorem copyIn_eq {r : Region} {off : Nat} {source : List UInt8}
    (h : off + source.length ≤ r.size) :
    r.copyIn off source = some { r with bytes := overlay r.bytes off source } := if_pos h

/-- A copy out of a region that has the bytes. -/
theorem copyOut_eq {r : Region} {off n : Nat} (h : off + n ≤ r.size) :
    r.copyOut off n = some (slice r.bytes off n) := if_pos h

/-- A bit is set inside a region. -/
theorem setBit_eq {r : Region} {bit : Nat} (h : bit / 8 < r.size) :
    r.setBit bit = some { r with bytes := bitSet r.bytes bit } := if_pos h

end Region

end Bytes
