import Mathlib.Algebra.Group.Nat.Defs
import Mathlib.Logic.Function.Basic

/-!
# LZ4 blocks

`compress` and `decompress`, from `kernel/rust/lz4/src/lib.rs`. Slices are lists of bytes; a slice
that is written to is passed in and comes back changed. The table of the match finder has 16-bit
entries and is known by its length and its contents. Loops have as many turns as their slices allow;
what they do when there are no turns left is what the code does at the end of the slice.
-/

namespace Tunix.Lz4

/-- `HASH_LOG`. -/
def hashLog : UInt32 := 12
/-- `TABLE_ENTRIES`. -/
def tableEntries : Nat := 1 <<< 12
/-- `MAX_INPUT`: a position has to fit into 16 bits. -/
def maxInput : Nat := 65535
/-- `MIN_MATCH`: a shorter match is not worth a token. -/
def minMatch : Nat := 4
/-- `LAST_LITERALS`: a block ends with as many literals. -/
def lastLiterals : Nat := 5
/-- `MF_LIMIT`: no match starts closer to the end. -/
def mfLimit : Nat := 12
/-- `MAX_OFFSET`. -/
def maxOffset : Nat := 65535
/-- `RUN_MASK`: a length as large goes on behind the token. -/
def runMask : Nat := 15
/-- `SKIP_TRIGGER`: how fast the search skips what does not compress. -/
def skipTrigger : UInt32 := 6

/-- Why a block is refused. -/
inductive Error
  | malformed
  | outputSize
  deriving DecidableEq

/-- `m.saturating_add(n)` -/
def saturatingAdd (m n : Nat) : Nat := min (m + n) (2 ^ 64 - 1)

/-- `bound`: no block is larger. -/
def bound (length : Nat) : Nat := saturatingAdd (saturatingAdd length (length / 255)) 16

/-! ## Slices -/

variable (data input : List UInt8)

/-- `data.get(first..stop)` -/
def getRange (first stop : Nat) : Option (List UInt8) :=
  if first ≤ stop ∧ stop ≤ data.length then some ((data.drop first).take (stop - first)) else none

/-- `copy`: as many bytes as both slices have. -/
def copy (target source : List UInt8) : List UInt8 :=
  source.take target.length ++ target.drop source.length

/-- `copy(data.get_mut(first..stop)?, source)` -/
def copyTo (first stop : Nat) (source : List UInt8) : Option (List UInt8) :=
  (getRange data first stop).map fun target =>
    data.take first ++ copy target source ++ data.drop stop

/-- `u32::from_le_bytes` -/
def fromLeBytes (a b c d : UInt8) : UInt32 :=
  a.toUInt32 ||| b.toUInt32 <<< 8 ||| c.toUInt32 <<< 16 ||| d.toUInt32 <<< 24

/-- `read_u32`. -/
def readU32 (pos : Nat) : Option UInt32 := match getRange data pos (pos + 4) with
  | some [a, b, c, d] => some (fromLeBytes a b c d)
  | _ => none

/-- `hash`. -/
def hash (sequence : UInt32) : Nat :=
  ((sequence * 2654435761) >>> (32 - hashLog)).toNat &&& (tableEntries - 1)

/-- The last position with each hash. -/
structure Table where
  length : Nat
  entry : Nat → UInt16

/-- `table.get`. -/
def Table.get (table : Table) (index : Nat) : Option UInt16 :=
  if index < table.length then some (table.entry index) else none

/-- An entry inside the table is replaced. -/
def Table.set (table : Table) (index : Nat) (value : UInt16) : Table :=
  { table with entry := Function.update table.entry index value }

/-- `u16::try_from(n).ok()` -/
def toU16 (n : Nat) : Option UInt16 := if n < 2 ^ 16 then some (UInt16.ofNat n) else none

/-- `u8::try_from(n).ok()` -/
def toU8 (n : Nat) : Option UInt8 := if n < 2 ^ 8 then some (UInt8.ofNat n) else none

/-- `checked_sub`. -/
def checkedSub (m n : Nat) : Option Nat := if n ≤ m then some (m - n) else none

/-! ## The writer -/

/-- The output buffer, filled up to a position. -/
structure Writer where
  buffer : List UInt8
  pos : Nat

variable (w : Writer)

/-- `byte`. -/
def Writer.byte (value : UInt8) : Option Writer :=
  if w.pos < w.buffer.length then some ⟨w.buffer.set w.pos value, w.pos + 1⟩ else none

/-- `bytes`. -/
def Writer.bytes (w : Writer) (data : List UInt8) : Option Writer := do
  let stop := w.pos + data.length
  let buffer ← copyTo w.buffer w.pos stop data
  some ⟨buffer, stop⟩

/-- The loop of `length`; `rest` is below 255 after at most `rest` turns. -/
def Writer.lengthLoop : Nat → Nat → Writer → Option Writer
  | turns + 1, rest, w =>
    if rest ≥ 255 then do
      let w ← w.byte 255
      lengthLoop turns (rest - 255) w
    else do
      let value ← toU8 rest
      w.byte value
  | 0, rest, w => do
    let value ← toU8 rest
    w.byte value

/-- `length`: the part of a length that the token has no room for. -/
def Writer.length (rest : Nat) : Option Writer := lengthLoop rest rest w

/-- The rest of a length that does not fit into the token. -/
def Writer.run (length : Nat) : Option Writer :=
  if length ≥ runMask then w.length (length - runMask) else some w

/-- `sequence`: literals and a match. -/
def Writer.sequence (literals : List UInt8) (offset matchLength : Nat) : Option Writer := do
  let extra ← checkedSub matchLength minMatch
  let high ← toU8 (min literals.length runMask)
  let low ← toU8 (min extra runMask)
  let w ← w.byte (high <<< 4 ||| low)
  let w ← w.run literals.length
  let w ← w.bytes literals
  let offset ← toU16 offset
  let w ← w.bytes [offset.toUInt8, (offset >>> 8).toUInt8]
  w.run extra

/-- `last`: the literals at the end. -/
def Writer.last (literals : List UInt8) : Option Writer := do
  let high ← toU8 (min literals.length runMask)
  let w ← w.byte (high <<< 4)
  let w ← w.run literals.length
  w.bytes literals

/-! ## The match finder -/

/-- The loop of `common_length`; `second + length` reaches `limit` after `limit - second` turns. -/
def commonLoop (source : List UInt8) (first second limit : Nat) : Nat → Nat → Nat
  | 0, length => length
  | turns + 1, length =>
    if second + length ≥ limit then length
    else
      match source[first + length]?, source[second + length]? with
      | some x, some y =>
        if x = y then commonLoop source first second limit turns (length + 1) else length
      | _, _ => length

/-- `common_length`: how far two positions agree. -/
def commonLength (source : List UInt8) (first second limit : Nat) : Nat :=
  commonLoop source first second limit (limit - second) 0

/-- The match is made longer to the left, for its begin and its origin. -/
def extendBack (source : List UInt8) (anchor : Nat) : Nat → Nat → Nat × Nat
  | begin, 0 => (begin, 0)
  | begin, origin + 1 =>
    if begin > anchor ∧ source[begin - 1]? = source[origin]? then
      extendBack source anchor (begin - 1) origin
    else (begin, origin + 1)

/-- The variables of the loop of `compress`. -/
structure Search where
  writer : Writer
  table : Table
  anchor : Nat
  position : Nat
  misses : UInt32

/-- The table learns the position two bytes before the end of a match. -/
def Table.noteEnd (table : Table) (source : List UInt8) (position : Nat) : Option Table :=
  if position < 2 ∨ position - 2 > source.length - mfLimit then some table
  else
    match readU32 source (position - 2) with
    | none => some table
    | some value =>
      match table.get (hash value) with
      | none => some table
      | some _ => do
        let back ← toU16 (position - 2)
        some (table.set (hash value) back)

/-- A match at the position is written out. -/
def Search.emit (s : Search) (source : List UInt8) (candidate : Nat) : Option Search := do
  let (begin, origin) := extendBack source s.anchor s.position candidate
  let found :=
    minMatch + commonLength source (origin + minMatch) (begin + minMatch)
      (source.length - lastLiterals)
  let literals ← getRange source s.anchor begin
  let writer ← s.writer.sequence literals (begin - origin) found
  let position := begin + found
  let table ← s.table.noteEnd source position
  some { writer, table, anchor := position, position, misses := 0 }

/-- One turn of the loop of `compress`. -/
def Search.turn (s : Search) (source : List UInt8) : Option Search := do
  let sequence ← readU32 source s.position
  let slot ← s.table.get (hash sequence)
  let candidate := slot.toNat
  let position ← toU16 s.position
  let s := { s with table := s.table.set (hash sequence) position }
  if candidate < s.position ∧ s.position - candidate ≤ maxOffset ∧
      readU32 source candidate = some sequence then s.emit source candidate
  else
    let misses := if s.misses = 0xFFFFFFFF then s.misses else s.misses + 1
    some { s with misses, position := s.position + (1 + (misses >>> skipTrigger).toNat) }

/-- The loop of `compress`; the position grows in every turn. -/
def Search.loop (source : List UInt8) : Nat → Search → Option Search
  | 0, s => some s
  | turns + 1, s =>
    if s.position ≤ source.length - mfLimit then do
      let s ← s.turn source
      loop source turns s
    else some s

/-- The length of the block, with the output and the table. -/
def compress (source output : List UInt8) (table : Table) : Option (Nat × List UInt8 × Table) :=
  if source.length > maxInput ∨ table.length < tableEntries then none
  else if source.length ≤ mfLimit then do
    let writer ← Writer.last ⟨output, 0⟩ source
    some (writer.pos, writer.buffer, table)
  else do
    let table := { table with entry := fun i => if i < tableEntries then 0 else table.entry i }
    let s ← Search.loop source source.length
      { writer := ⟨output, 0⟩, table, anchor := 0, position := 0, misses := 0 }
    let literals ← getRange source s.anchor source.length
    let writer ← s.writer.last literals
    some (writer.pos, writer.buffer, s.table)

/-! ## The decoder -/

/-- `value.ok_or(error)` -/
def okOr {α : Type} (value : Option α) (error : Error) : Except Error α := match value with
  | some v => .ok v
  | none => .error error

/-- The loop of `read_length`: the position behind the length, and the length. -/
def readLengthLoop (input : List UInt8) : Nat → Nat → Nat → Except Error (Nat × Nat)
  | 0, _, _ => .error .malformed
  | turns + 1, pos, length => do
    let byte ← okOr input[pos]? .malformed
    if byte ≠ 255 then .ok (pos + 1, length + byte.toNat)
    else readLengthLoop input turns (pos + 1) (length + byte.toNat)

/-- `read_length`. -/
def readLength (pos length : Nat) : Except Error (Nat × Nat) :=
  readLengthLoop input (input.length - pos) pos length

/-- A length whose first four bits are in the token. -/
def tokenLength (pos length : Nat) : Except Error (Nat × Nat) :=
  if length = runMask then readLength input pos length else .ok (pos, length)

/-- `copy(tail.get_mut(..step)?, head.get(origin..origin + step)?)` behind
    `split_at_mut_checked(at)` -/
def copyWithin (output : List UInt8) (pos origin step : Nat) : Except Error (List UInt8) := do
  let _ ← okOr (if pos ≤ output.length then some () else none) .malformed
  let source ← okOr (getRange (output.take pos) origin (origin + step)) .malformed
  okOr (copyTo output pos (pos + step) source) .malformed

/-- The loop that copies a match that overlaps itself. -/
def overlapLoop (offset matchEnd : Nat) : Nat → Nat → Nat → List UInt8 → Except Error (List UInt8)
  | 0, _, _, output => .ok output
  | turns + 1, pos, origin, output =>
    if pos < matchEnd then do
      let step := min offset (matchEnd - pos)
      let output ← copyWithin output pos origin step
      overlapLoop offset matchEnd turns (pos + step) (origin + step) output
    else .ok output

/-- The match of `decompress`, copied byte by byte where source and target overlap. -/
def copyMatch (output : List UInt8) (out offset matched : Nat) : Except Error (List UInt8) :=
  if offset ≥ matched then copyWithin output out (out - offset) matched
  else overlapLoop offset (out + matched) matched out (out - offset) output

/-- The first part of a turn of `decompress`: the token, and the positions in the input and in the
    output behind the literals. -/
def readLiterals (pos out : Nat) (output : List UInt8) :
    Except Error (UInt8 × Nat × Nat × List UInt8) := do
  let token ← okOr input[pos]? .malformed
  let (pos, literals) ← tokenLength input (pos + 1) (token >>> 4).toNat
  let source ← okOr (getRange input pos (pos + literals)) .malformed
  let output ← okOr (copyTo output out (out + literals) source) .outputSize
  .ok (token, pos + literals, out + literals, output)

/-- The second part of a turn, unless the input ends behind the literals. -/
def readMatch (token : UInt8) (pos out : Nat) (output : List UInt8) :
    Except Error (Nat × Nat × List UInt8) :=
  if out > output.length - mfLimit ∨ pos > input.length - (3 + lastLiterals) then .error .malformed
  else do
    let low ← okOr input[pos]? .malformed
    let high ← okOr input[pos + 1]? .malformed
    let offset := (low.toUInt16 ||| high.toUInt16 <<< 8).toNat
    if offset = 0 ∨ offset > out then .error .malformed
    else do
      let (pos, matched) ← tokenLength input (pos + 2) (token &&& 15).toNat
      let matched := matched + minMatch
      if out + matched > output.length - lastLiterals then .error .malformed
      else do
        let output ← copyMatch output out offset matched
        .ok (pos, out + matched, output)

/-- The loop of `decompress`; every turn reads a token. -/
def decompressLoop (input : List UInt8) : Nat → Nat → Nat → List UInt8 → Except Error (List UInt8)
  | 0, _, _, _ => .error .malformed
  | turns + 1, pos, out, output => do
    let (token, pos, out, output) ← readLiterals input pos out output
    if pos = input.length then
      if out = output.length then .ok output else .error .outputSize
    else do
      let (pos, out, output) ← readMatch input token pos out output
      decompressLoop input turns pos out output

/-- `decompress`. -/
def decompress (output : List UInt8) : Except Error (List UInt8) :=
  if input = [] then .error .malformed
  else if output.length = 0 then
    if input = [0] then .ok output else .error .malformed
  else decompressLoop input input.length 0 0 output

end Tunix.Lz4
