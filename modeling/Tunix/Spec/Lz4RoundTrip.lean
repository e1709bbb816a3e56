import Tunix.ForStd.Bytes
import Tunix.Spec.Lz4Block

/-!
# LZ4 round trip

What `compress` writes is the encoding of a block whose output is its input: each match it emits has
been compared byte by byte, to the left as far as the last match and to the right as far as the
rules for the end of a block allow. `decompress` therefore gives the input back
(`decompress_compress`). A sequence is longer than its output only by a byte in 255, so that a
buffer of the size `bound` suffices (`compress_isSome`).
-/

namespace Tunix.Lz4

open List Option UInt8 Sequence

/-! ## The writer -/

/-- The writer has written these bytes into a buffer of that size. -/
structure Writer.Holds (size : Nat) (written : List UInt8) (w : Writer) : Prop where
  size : w.buffer.length = size
  pos : w.pos = written.length
  written : w.buffer.take w.pos = written

/-- A write behind what has been written: it adds these bytes, and succeeds if there is room. -/
structure Appends (size : Nat) (written data : List UInt8) (op : Option Writer) : Prop where
  holds : ∀ {w}, op = some w → w.Holds size (written ++ data)
  room : (written ++ data).length ≤ size → op.isSome

section Writing

variable {size : Nat} {written : List UInt8} {w : Writer}

/-- One write after another. -/
theorem Appends.bind {a b : List UInt8} {op : Option Writer} {f : Writer → Option Writer}
    (h : Appends size written a op)
    (hf : ∀ {w : Writer}, w.Holds size (written ++ a) → Appends size (written ++ a) b (f w)) :
    Appends size written (a ++ b) (op.bind f) := by
  constructor
  · intro w hw
    obtain ⟨mid, hmid, hw⟩ := bind_eq_some_iff.mp hw
    rw [← append_assoc]
    exact (hf (h.holds hmid)).holds hw
  · intro hroom
    rw [← append_assoc] at hroom
    obtain ⟨mid, hmid⟩ := isSome_iff_exists.mp
      (h.room (Nat.le_trans (Nat.le_add_right ..) (length_append ▸ hroom)))
    rw [hmid]
    exact (hf (h.holds hmid)).room hroom

section

variable (h : w.Holds size written)

include h

private theorem Writer.Holds.bytes (data : List UInt8) :
    Appends size written data (w.bytes data) := by
  constructor
  · intro w' hw
    obtain ⟨buffer, hbuffer, hw⟩ := bind_eq_some_iff.mp hw
    obtain ⟨hle, rfl⟩ := copyTo_eq_some.mp hbuffer
    obtain rfl := some.inj hw
    refine ⟨(length_written hle rfl).trans h.size, ?_, ?_⟩
    · rw [length_append, ← h.pos]
    · rw [take_written hle rfl, h.written]
  · intro hroom
    rw [length_append, ← h.pos, ← h.size] at hroom
    simp [Writer.bytes, copyTo_eq hroom rfl]

/-- One byte is appended, if there is room. -/
theorem Writer.Holds.byte (value : UInt8) : Appends size written [value] (w.byte value) := by
  have hbyte : w.byte value = w.bytes [value] := by
    unfold Writer.byte
    split_ifs with hlt
    · rw [Writer.bytes, copyTo_eq (show w.pos + [value].length ≤ _ from hlt) rfl]
      simp [List.set_eq_take_append_cons_drop, hlt]
    · have hnone : getRange w.buffer w.pos (w.pos + 1) = none := if_neg fun hr => hlt hr.2
      simp [Writer.bytes, copyTo, hnone]
  rw [hbyte]
  exact h.bytes [value]

/-- A length below 255 is one byte. -/
theorem Writer.Holds.shortLength {rest : Nat} (hlt : rest < 255) :
    Appends size written (restBytes rest) ((toU8 rest).bind w.byte) := by
  rw [restBytes_short hlt, toU8, if_pos (by omega), bind_some]
  exact h.byte _

private theorem Writer.Holds.lengthLoop {turns rest : Nat} (hturns : rest ≤ turns) :
    Appends size written (restBytes rest) (Writer.lengthLoop turns rest w) := by
  induction turns generalizing rest w written with
  | zero => exact h.shortLength (by omega)
  | succ turns ih =>
    unfold Writer.lengthLoop
    split_ifs with hbig
    · obtain ⟨rest, rfl⟩ := Nat.exists_eq_add_of_le' hbig
      rw [restBytes_long, Nat.add_sub_cancel]
      exact (h.byte 255).bind fun h => ih h (by omega)
    · exact h.shortLength (by omega)

/-- The bytes behind the token for a length. -/
theorem Writer.Holds.run (n : Nat) : Appends size written (runBytes n) (w.run n) := by
  unfold Writer.run
  rw [runBytes]
  split_ifs
  · exact h.lengthLoop (le_refl _)
  refine ⟨fun hw => ?_, fun _ => rfl⟩
  rw [append_nil, ← some.inj hw]
  exact h

end

private theorem token_eq {literals extra : Nat} :
    ofNat (min literals runMask) <<< 4 ||| ofNat (min extra runMask) =
      token literals extra := by
  have hlit : min literals runMask ≤ 15 := min_le_right ..
  have hext : min extra runMask ≤ 15 := min_le_right ..
  generalize hl : min literals runMask = l at hlit
  generalize he : min extra runMask = e at hext
  rw [token, hl, he]
  have hall : ∀ l ≤ 15, ∀ e ≤ 15, ofNat l <<< 4 ||| ofNat e = ofNat (l * 16 + e) := by
    decide
  exact hall l hlit e hext

private theorem Writer.Holds.last (h : w.Holds size written) (literals : List UInt8) :
    Appends size written (literalBytes (token literals.length 0) literals) (w.last literals) := by
  have hmin : min literals.length runMask < 2 ^ 8 := lt_of_le_of_lt (min_le_right ..) (by decide)
  have htoken : ofNat (min literals.length runMask) <<< 4 = token literals.length 0 := by
    rw [← token_eq]
    exact (UInt8.or_zero).symm
  simp only [Writer.last, toU8, if_pos hmin, bind, bind_some, htoken]
  exact (h.byte _).bind fun h => (h.run _).bind fun h => h.bytes _

private theorem offsetBytes_eq {offset : Nat} (h : offset < 2 ^ 16) :
    [(UInt16.ofNat offset).toUInt8, (UInt16.ofNat offset >>> 8).toUInt8] =
      [ofNat (offset % 256), ofNat (offset / 256)] := by
  have hoffset : (UInt16.ofNat offset).toNat = offset := UInt16.toNat_ofNat_of_lt' h
  congr 1
  · rw [← UInt8.toNat_inj, UInt16.toNat_toUInt8, hoffset, UInt8.toNat_ofNat']
    omega
  · congr 1
    rw [← UInt8.toNat_inj, UInt16.toNat_toUInt8, UInt16.toNat_shiftRight, hoffset,
      UInt8.toNat_ofNat']
    change offset >>> 8 % 2 ^ 8 = _
    rw [Nat.shiftRight_eq_div_pow]

private theorem Writer.Holds.sequence {offset matchLength : Nat} (h : w.Holds size written)
    (literals : List UInt8) (hoffset : offset < 2 ^ 16) (hmin : minMatch ≤ matchLength) :
    Appends size written (encode ⟨literals, offset, matchLength⟩)
      (w.sequence literals offset matchLength) := by
  have hmask : ∀ n, min n runMask < 2 ^ 8 := fun n =>
    lt_of_le_of_lt (min_le_right ..) (by decide)
  simp only [Writer.sequence, checkedSub, toU8, toU16, if_pos hmin,
    if_pos (hmask _), if_pos hoffset,
    token_eq, offsetBytes_eq hoffset, bind, bind_some]
  rw [encode, literalBytes, matchBytes, cons_append, append_assoc]
  exact (h.byte _).bind fun h => (h.run _).bind fun h => (h.bytes _).bind fun h =>
    (h.bytes _).bind fun h => h.run _

end Writing

/-! ## The match finder -/

section Finding

variable {source : List UInt8}

/-- The match grows to the left by equal bytes, and both of its places by the same number. -/
theorem extendBack_spec {anchor position candidate : Nat} (hanchor : anchor ≤ position)
    (hcandidate : candidate < position) :
    ∃ begin origin, extendBack source anchor position candidate = (begin, origin) ∧
      anchor ≤ begin ∧ begin ≤ position ∧ begin + candidate = position + origin ∧
      ∀ i, begin + i < position → source[origin + i]? = source[begin + i]? := by
  induction candidate generalizing position with
  | zero => exact ⟨position, 0, rfl, hanchor, le_refl _, rfl, fun i hi => by omega⟩
  | succ origin ih =>
    unfold extendBack
    split_ifs with hmore
    · obtain ⟨begin, first, heq, hlow, hhigh, hsame, hbytes⟩ :=
        ih (show anchor ≤ position - 1 by omega) (by omega)
      refine ⟨begin, first, heq, hlow, by omega, by omega, fun i hi => ?_⟩
      by_cases hlast : begin + i < position - 1
      · exact hbytes i hlast
      -- the byte just compared
      rw [show first + i = origin by omega, show begin + i = position - 1 by omega]
      exact hmore.2.symm
    · exact ⟨position, origin + 1, rfl, hanchor, le_refl _, rfl, fun i hi => by omega⟩

/-- `common_length` counts equal bytes up to the limit, and stops only at the limit or a
    difference. -/
theorem commonLoop_spec {first second limit turns length : Nat} (hlimit : limit ≤ source.length)
    (hfirst : first ≤ second) (hturns : limit - second ≤ turns + length)
    (hstart : second + length ≤ limit)
    (hequal : ∀ i < length, source[first + i]? = source[second + i]?) :
    (second + commonLoop source first second limit turns length ≤ limit) ∧
      (∀ i < commonLoop source first second limit turns length,
        source[first + i]? = source[second + i]?) ∧
      ∀ n, second + n ≤ limit → (∀ i < n, source[first + i]? = source[second + i]?) →
        n ≤ commonLoop source first second limit turns length := by
  induction turns generalizing length with
  | zero => exact ⟨hstart, hequal, fun n hn _ => by simp only [commonLoop]; omega⟩
  | succ turns ih =>
    unfold commonLoop
    split_ifs with hend
    · exact ⟨hstart, hequal, fun n hn _ => by omega⟩
    have ha : first + length < source.length := by omega
    have hb : second + length < source.length := by omega
    rw [getElem?_eq_getElem ha, getElem?_eq_getElem hb]
    dsimp only
    split_ifs with hsame
    · refine ih (by omega) (by omega) fun i hi => ?_
      rcases Nat.lt_succ_iff_lt_or_eq.mp hi with hlt | rfl
      · exact hequal i hlt
      · rw [getElem?_eq_getElem ha, getElem?_eq_getElem hb, hsame]
    · refine ⟨hstart, hequal, fun n hn hall => ?_⟩
      by_contra hlong
      have := hall length (by omega)
      rw [getElem?_eq_getElem ha, getElem?_eq_getElem hb, some.injEq] at this
      exact hsame this

private theorem commonLength_spec {first second limit : Nat} (hlimit : limit ≤ source.length)
    (hfirst : first ≤ second) (hsecond : second ≤ limit) :
    (second + commonLength source first second limit ≤ limit) ∧
      (∀ i < commonLength source first second limit, source[first + i]? = source[second + i]?) ∧
      ∀ n, second + n ≤ limit → (∀ i < n, source[first + i]? = source[second + i]?) →
        n ≤ commonLength source first second limit :=
  commonLoop_spec hlimit hfirst (le_refl _) hsecond fun i hi => absurd hi (Nat.not_lt_zero i)

private theorem fromLeBytes_eq (a b c d : UInt8) : fromLeBytes a b c d =
    d.toUInt32 <<< 24 ||| c.toUInt32 <<< 16 ||| b.toUInt32 <<< 8 ||| a.toUInt32 := by
  simp only [fromLeBytes, UInt32.or_comm, UInt32.or_assoc]

private theorem fromLeBytes_inj {a b c d a' b' c' d' : UInt8}
    (h : fromLeBytes a b c d = fromLeBytes a' b' c' d') : a = a' ∧ b = b' ∧ c = c' ∧ d = d' := by
  obtain ⟨hd, hc, hb, ha⟩ := Bytes.byte_of_be32 d c b a
  obtain ⟨hd', hc', hb', ha'⟩ := Bytes.byte_of_be32 d' c' b' a'
  rw [← fromLeBytes_eq, h] at ha hb hc hd
  rw [← fromLeBytes_eq] at ha' hb' hc' hd'
  exact ⟨ha.symm.trans ha', hb.symm.trans hb', hc.symm.trans hc', hd.symm.trans hd'⟩

private theorem readU32_some {pos : Nat} {value : UInt32} (h : readU32 source pos = some value) :
    ∃ a b c d, value = fromLeBytes a b c d ∧ ∀ i < 4, source[pos + i]? = [a, b, c, d][i]? := by
  unfold readU32 at h
  split at h
  · next a b c d hrange =>
    unfold getRange at hrange
    split_ifs at hrange
    refine ⟨a, b, c, d, (some.inj h).symm, fun i hi => ?_⟩
    rw [← some.inj hrange, getElem?_take_of_lt (by omega), getElem?_drop]
  · cases h

private theorem readU32_isSome {pos : Nat} (h : pos + 4 ≤ source.length) :
    (readU32 source pos).isSome := by
  have hlen : ((source.drop pos).take 4).length = 4 := by
    rw [length_take, length_drop]
    omega
  rw [readU32, getRange, if_pos ⟨by omega, h⟩, Nat.add_sub_cancel_left]
  obtain ⟨a, b, c, d, heq⟩ := length_eq_four.mp hlen
  rw [heq]
  rfl

/-- Four bytes that read as the same number are the same. -/
theorem readU32_eq {pos pos' : Nat} {value : UInt32} (h : readU32 source pos = some value)
    (h' : readU32 source pos' = some value) :
    ∀ i < 4, source[pos + i]? = source[pos' + i]? := by
  obtain ⟨a, b, c, d, hvalue, hbytes⟩ := readU32_some h
  obtain ⟨a', b', c', d', hvalue', hbytes'⟩ := readU32_some h'
  obtain ⟨rfl, rfl, rfl, rfl⟩ := fromLeBytes_inj (hvalue.symm.trans hvalue')
  intro i hi
  rw [hbytes i hi, hbytes' i hi]

/-- What the match finder makes of a position and a candidate with the same four bytes. -/
theorem match_spec {anchor position candidate : Nat} {value : UInt32} (hanchor : anchor ≤ position)
    (hposition : position + mfLimit ≤ source.length) (hcandidate : candidate < position)
    (hvalue : readU32 source position = some value)
    (hvalue' : readU32 source candidate = some value) :
    ∃ begin origin found, extendBack source anchor position candidate = (begin, origin) ∧
      found = minMatch + commonLength source (origin + minMatch) (begin + minMatch)
        (source.length - lastLiterals) ∧
      anchor ≤ begin ∧ begin ≤ position ∧ begin + candidate = position + origin ∧
      position < begin + found ∧ begin + found + lastLiterals ≤ source.length ∧
      ∀ i < found, source[origin + i]? = source[begin + i]? := by
  obtain ⟨begin, origin, hback, hlow, hhigh, hshift, hleft⟩ := extendBack_spec hanchor hcandidate
  -- the bytes found on the left, and the four that were looked up
  have hknown : ∀ i, begin + i < position + 4 → source[origin + i]? = source[begin + i]? := by
    intro i hi
    by_cases hi' : begin + i < position
    · exact hleft i hi'
    have heq := readU32_eq hvalue' hvalue (begin + i - position) (by omega)
    rw [show candidate + (begin + i - position) = origin + i by omega,
      show position + (begin + i - position) = begin + i by omega] at heq
    exact heq
  simp only [mfLimit] at hposition
  obtain ⟨hlimit, hright, hmax⟩ := commonLength_spec (Nat.sub_le source.length lastLiterals)
    (show origin + minMatch ≤ begin + minMatch by omega)
      (by simp only [minMatch, lastLiterals]; omega)
  -- the search to the right passes the position, since it starts among known bytes
  have hlong :=
    hmax (position - begin) (by simp only [minMatch, lastLiterals]; omega) fun i hi => by
    rw [add_assoc, add_assoc]
    exact hknown _ (by simp only [minMatch]; omega)
  refine ⟨begin, origin, _, hback, rfl, hlow, hhigh, hshift, ?_, ?_, fun i hi => ?_⟩
  · simp only [minMatch] at hlong ⊢
    omega
  · omega
  · by_cases hi' : i < minMatch
    · exact hknown i (by simp only [minMatch] at hi'; omega)
    have heq := hright (i - minMatch) (by omega)
    rw [show origin + minMatch + (i - minMatch) = origin + i by omega,
      show begin + minMatch + (i - minMatch) = begin + i by omega] at heq
    exact heq

end Finding

/-! ## Lengths of blocks -/

private theorem length_runBytes (n : Nat) : (runBytes n).length = (n + 240) / 255 := by
  rw [runBytes, runMask]
  split_ifs
  · rw [restBytes, length_append, length_replicate, length_singleton]
    omega
  · rw [length_nil]
    omega

/-- A sequence is not longer than its output, but for a byte in 255. -/
theorem Sequence.Fits.length_encode_le {total out : Nat} {s : Sequence} (h : s.Fits total out) :
    s.encode.length + (out + out / 255) ≤
      s.matchStart out + s.matchLength + (s.matchStart out + s.matchLength) / 255 := by
  have hmin : 4 ≤ s.matchLength := h.minMatch
  simp only [Sequence.encode, literalBytes, matchBytes, Sequence.matchStart,
    Lz4.minMatch, length_cons,
    length_append, length_runBytes, length_nil]
  omega

private theorem length_sequences_le {total : Nat} {sequences : List Sequence} {out : List UInt8}
    (hfit : Fit total out.length sequences) :
    (sequences.flatMap encode).length + (out.length + out.length / 255) ≤
      (sequences.foldl expand out).length +
        (sequences.foldl expand out).length / 255 := by
  induction sequences generalizing out with
  | nil => exact le_of_eq (zero_add _)
  | cons s rest ih =>
    obtain ⟨hs, hrest⟩ := hfit
    rw [← hs.length_expand] at hrest
    have hfirst := hs.length_encode_le
    have hthen := ih hrest
    rw [hs.length_expand] at hthen
    rw [flatMap_cons, length_append, foldl_cons]
    omega

private theorem length_literalBytes_eq (tok : UInt8) (literals : List UInt8) :
    (literalBytes tok literals).length = 1 + (literals.length + 240) / 255 + literals.length := by
  rw [literalBytes, length_cons, length_append, length_runBytes]
  omega

private theorem bound_eq {n : Nat} (h : n ≤ maxInput) : bound n = n + n / 255 + 16 := by
  rw [maxInput] at h
  rw [bound, saturatingAdd, saturatingAdd]
  omega

/-! ## The loop -/

/-- The output that a list of sequences gives is the source up to the anchor, and it has been
    written down. -/
structure Search.Inv (source : List UInt8) (size : Nat) (sequences : List Sequence) (s : Search) :
    Prop where
  writer : s.writer.Holds size (sequences.flatMap encode)
  fit : Fit source.length 0 sequences
  expand : sequences.foldl expand [] = source.take s.anchor
  anchor : s.anchor ≤ s.position

/-- One more sequence at the end. -/
theorem fit_concat {total : Nat} {sequences : List Sequence} {out : List UInt8} {s : Sequence}
    (hfit : Fit total out.length sequences)
    (hs : s.Fits total (sequences.foldl expand out).length) :
    Fit total out.length (sequences ++ [s]) := by
  induction sequences generalizing out with
  | nil => exact ⟨hs, trivial⟩
  | cons s' rest ih =>
    obtain ⟨hs', hrest⟩ := hfit
    rw [← hs'.length_expand] at hrest
    refine ⟨hs', ?_⟩
    rw [← hs'.length_expand]
    exact ih hrest hs

/-- A step of the search adds sequences and moves on; it succeeds if the table and the buffer have
    the size that `compress` is to be given. -/
structure Search.Steps (source : List UInt8) (size : Nat) (sequences : List Sequence) (s : Search)
    (op : Option Search) : Prop where
  inv : ∀ {s'}, op = some s' → ∃ more, s'.Inv source size (sequences ++ more) ∧
    s.position < s'.position ∧ s'.anchor ≤ source.length ∧ s'.table.length = s.table.length
  total : source.length ≤ maxInput → tableEntries ≤ s.table.length →
    bound source.length ≤ size → op.isSome

section Looping

variable {source : List UInt8} {size : Nat} {s s' : Search} {sequences : List Sequence}

private theorem Table.noteEnd_length {table table' : Table} {position : Nat}
    (h : table.noteEnd source position = some table') : table'.length = table.length := by
  revert h
  fun_cases Table.noteEnd with
  | case1 | case2 | case3 => exact fun h => by rw [some.inj h]
  | case4 =>
    intro h
    obtain ⟨back, -, h⟩ := bind_eq_some_iff.mp h
    rw [← some.inj h]
    exact Eq.refl table.length

private theorem Table.noteEnd_isSome (table : Table) {position : Nat} (h : position ≤ maxInput) :
    (table.noteEnd source position).isSome := by
  rw [maxInput] at h
  fun_cases Table.noteEnd with
  | case1 | case2 | case3 => rfl
  | case4 =>
    rw [toU16, if_pos (by omega)]
    rfl

/-- A match found at the position becomes a sequence that takes the source up to its end. -/
theorem Search.Inv.emit {candidate : Nat} {value : UInt32} (h : s.Inv source size sequences)
    (hposition : s.position + mfLimit ≤ source.length) (hcandidate : candidate < s.position)
    (hdistance : s.position - candidate ≤ maxOffset)
    (hvalue : readU32 source s.position = some value)
    (hvalue' : readU32 source candidate = some value) :
    s.Steps source size sequences (s.emit source candidate) := by
  obtain ⟨begin, origin, found, hback, hfound, hlow, hhigh, hshift, hpast, hend, hequal⟩ :=
    match_spec h.anchor hposition hcandidate hvalue hvalue'
  obtain ⟨literals, hliterals⟩ :
      ∃ literals, literals = (source.drop s.anchor).take (begin - s.anchor) := ⟨_, rfl⟩
  have hrange : getRange source s.anchor begin = some literals := by
    rw [getRange, if_pos ⟨hlow, by omega⟩, hliterals]
  have hlen : literals.length = begin - s.anchor := by
    rw [hliterals, length_take, length_drop]
    omega
  have hfits : Fits source.length s.anchor ⟨literals, begin - origin, found⟩ := by
    have hstart : matchStart ⟨literals, begin - origin, found⟩ s.anchor = begin := by
      change s.anchor + literals.length = begin
      omega
    rw [maxOffset] at hdistance
    refine ⟨by dsimp only; omega, ?_, by dsimp only; omega, hfound ▸ Nat.le_add_right .., ?_, ?_⟩
    · rw [hstart]
      exact Nat.sub_le ..
    · omega
    · rw [hstart]
      exact hend
  have hpos : 0 < begin - origin := hfits.offset_pos
  have hroom : begin + found ≤ source.length := Nat.le_trans (Nat.le_add_right ..) hend
  have hwrite := h.writer.sequence literals hfits.offset_lt hfits.minMatch
  dsimp only at hwrite
  have hexpand : Sequence.expand (source.take s.anchor) ⟨literals, begin - origin, found⟩ =
      source.take (begin + found) := by
    rw [Sequence.expand, hliterals, ← take_add, Nat.add_sub_cancel' hlow]
    refine copyBack_take hpos (Nat.sub_le ..) hroom fun i hi => ?_
    rw [show begin - (begin - origin) = origin by omega]
    exact hequal i hi
  simp only [Search.emit, hback, ← hfound, hrange, bind, bind_some]
  -- the sequences with the new one
  generalize (⟨literals, begin - origin, found⟩ : Sequence) = last at hfits hwrite hexpand
  have hout : (sequences.foldl Sequence.expand []).length = s.anchor := by
    rw [h.expand, length_take]
    omega
  have hfit : Fit source.length 0 (sequences ++ [last]) := @fit_concat _ _ [] _ h.fit (hout ▸ hfits)
  have hsource : (sequences ++ [last]).foldl Sequence.expand [] = source.take (begin + found) := by
    rw [foldl_append, foldl_cons, foldl_nil, h.expand, hexpand]
  have hencode :
      sequences.flatMap encode ++ last.encode = (sequences ++ [last]).flatMap encode := by
    rw [flatMap_append, flatMap_singleton]
  constructor
  · intro s' hs'
    simp only [bind_eq_some_iff, some.injEq] at hs'
    obtain ⟨writer, hwriter, table, htable, rfl⟩ := hs'
    exact ⟨_, ⟨hencode ▸ hwrite.holds hwriter, hfit, hsource, le_refl _⟩, hpast, hroom,
      Table.noteEnd_length htable⟩
  · intro hmax _ hsize
    have hlength := @length_sequences_le _ _ [] hfit
    rw [hsource, length_take_of_le hroom, length_nil, ← hencode] at hlength
    rw [bound_eq hmax] at hsize
    obtain ⟨writer, hwriter⟩ := isSome_iff_exists.mp (hwrite.room (by omega))
    obtain ⟨table, htable⟩ := isSome_iff_exists.mp
      (@Table.noteEnd_isSome source s.table _ (le_trans hroom hmax))
    rw [hwriter, bind_some, htable]
    rfl

private theorem hash_lt (value : UInt32) : hash value < tableEntries :=
  lt_of_le_of_lt Nat.and_le_right (show tableEntries - 1 < tableEntries by decide)

/-- A turn of the loop keeps the invariant and moves on. -/
theorem Search.Inv.turn (h : s.Inv source size sequences)
    (hposition : s.position + mfLimit ≤ source.length) :
    s.Steps source size sequences (s.turn source) := by
  have hin : s.position + 12 ≤ source.length := hposition
  obtain ⟨value, hvalue⟩ := isSome_iff_exists.mp
    (readU32_isSome (show s.position + 4 ≤ source.length by omega))
  have hset : ∀ entry,
      Search.Inv source size sequences { s with table := s.table.set (hash value) entry } :=
    fun _ => ⟨h.writer, h.fit, h.expand, h.anchor⟩
  simp only [Search.turn, bind]
  rw [hvalue, bind_some]
  constructor
  · intro s' hs'
    obtain ⟨slot, -, hs'⟩ := bind_eq_some_iff.mp hs'
    obtain ⟨entry, -, hs'⟩ := bind_eq_some_iff.mp hs'
    split at hs'
    · next hfound =>
      exact ((hset entry).emit hposition hfound.1 hfound.2.1 hvalue hfound.2.2).inv hs'
    · obtain rfl := some.inj hs'
      refine ⟨[], ?_, Nat.lt_add_of_pos_right (Nat.add_pos_left Nat.one_pos _),
        le_trans h.anchor (by omega), rfl⟩
      rw [append_nil]
      exact ⟨h.writer, h.fit, h.expand, Nat.le_trans h.anchor (Nat.le_add_right ..)⟩
  · intro hmax htable hsize
    -- every hash is in the table, and every position fits into an entry
    have hslot : s.table.get (hash value) = some (s.table.entry (hash value)) :=
      if_pos (lt_of_lt_of_le (hash_lt value) htable)
    have hentry : toU16 s.position = some (UInt16.ofNat s.position) :=
      if_pos (by rw [maxInput] at hmax; omega)
    rw [hslot, bind_some, hentry, bind_some]
    split
    · next hfound =>
      exact ((hset _).emit hposition hfound.1 hfound.2.1 hvalue hfound.2.2).total hmax htable hsize
    · rfl

/-- The loop keeps the invariant, and ends only when the position has passed the limit. -/
theorem Search.Inv.loop {turns : Nat} (h : s.Inv source size sequences)
    (hlong : mfLimit ≤ source.length) (hanchor : s.anchor ≤ source.length)
    (hturns : source.length - s.position ≤ turns) :
    (∀ {s'}, Search.loop source turns s = some s' →
      (∃ more, s'.Inv source size (sequences ++ more)) ∧
      s'.anchor ≤ source.length ∧ source.length - mfLimit < s'.position) ∧
    (source.length ≤ maxInput → tableEntries ≤ s.table.length → bound source.length ≤ size →
      (Search.loop source turns s).isSome) := by
  induction turns generalizing s sequences with
  | zero =>
    refine ⟨fun hloop => ?_, fun _ _ _ => rfl⟩
    obtain rfl := some.inj hloop
    exact ⟨⟨[], (append_nil sequences).symm ▸ h⟩, hanchor, by simp only [mfLimit] at hlong ⊢; omega⟩
  | succ turns ih =>
    unfold Search.loop
    split_ifs with hmore
    · have hstep := h.turn (show s.position + mfLimit ≤ source.length by omega)
      constructor
      · intro s' hloop
        obtain ⟨next, hnext, hrest⟩ := bind_eq_some_iff.mp hloop
        obtain ⟨more, hinv, hlt, hle, -⟩ := hstep.inv hnext
        obtain ⟨⟨rest, hdone⟩, hend⟩ := (ih hinv hle (by omega)).1 hrest
        exact ⟨⟨more ++ rest, append_assoc sequences more rest ▸ hdone⟩, hend⟩
      · intro hmax htable hsize
        obtain ⟨next, hnext⟩ := isSome_iff_exists.mp (hstep.total hmax htable hsize)
        obtain ⟨more, hinv, hlt, hle, hlength⟩ := hstep.inv hnext
        rw [hnext]
        exact (ih hinv hle (by omega)).2 hmax (hlength ▸ htable) hsize
    · refine ⟨fun hloop => ?_, fun _ _ _ => rfl⟩
      obtain rfl := some.inj hloop
      exact ⟨⟨[], (append_nil sequences).symm ▸ h⟩, hanchor, by omega⟩

end Looping

/-! ## Whole runs -/

section Compressing

variable {source output : List UInt8} {table : Table}

private theorem Writer.holds_nil (output : List UInt8) :
    Writer.Holds output.length [] ⟨output, 0⟩ := ⟨rfl, rfl, rfl⟩

private theorem Search.inv_nil (source output : List UInt8) (table : Table) :
    Search.Inv source output.length []
      { writer := ⟨output, 0⟩, table, anchor := 0, position := 0, misses := 0 } :=
  ⟨Writer.holds_nil output, trivial, rfl, le_refl _⟩

private theorem getRange_length {first : Nat} (h : first ≤ source.length) :
    getRange source first source.length = some (source.drop first) := by
  rw [getRange, if_pos ⟨h, le_refl _⟩, take_of_length_le (le_of_eq length_drop)]

/-- What is written is the encoding of a block whose output is the source. -/
theorem compress_block {output' : List UInt8} {table' : Table} {n : Nat}
    (h : compress source output table = some (n, output', table')) :
    ∃ b : Block, b.expand = source ∧ Fit source.length 0 b.sequences ∧ n ≤ output.length ∧
      output'.take n = b.bytes 0 := by
  have hbound :
      ∀ {w : Writer} {written}, w.Holds output.length written → w.pos ≤ output.length := by
    intro w written hw
    have hlen := congrArg length hw.written
    rw [length_take, hw.size, ← hw.pos] at hlen
    omega
  unfold compress at h
  split_ifs at h with hbad hshort
  · simp only [bind, bind_eq_some_iff, some.injEq, Prod.mk.injEq] at h
    obtain ⟨writer, hlast, rfl, rfl, rfl⟩ := h
    have hdone := ((Writer.holds_nil output).last source).holds hlast
    exact ⟨⟨[], source⟩, rfl, trivial, hbound hdone, hdone.written⟩
  simp only [bind, bind_eq_some_iff, some.injEq, Prod.mk.injEq] at h
  obtain ⟨s, hloop, literals, hliterals, writer, hlast, rfl, rfl, rfl⟩ := h
  obtain ⟨⟨sequences, hinv⟩, hanchor, -⟩ :=
    ((Search.inv_nil ..).loop (by omega) (Nat.zero_le _) (Nat.sub_le ..)).1 hloop
  rw [nil_append] at hinv
  rw [getRange_length hanchor] at hliterals
  obtain rfl := some.inj hliterals
  have hdone := (hinv.writer.last _).holds hlast
  refine ⟨⟨sequences, source.drop s.anchor⟩, ?_, hinv.fit, hbound hdone, hdone.written⟩
  rw [Block.expand, hinv.expand, take_append_drop]

/-- A buffer of the size that `bound` gives is large enough. -/
theorem compress_isSome (hmax : source.length ≤ maxInput) (htable : tableEntries ≤ table.length)
    (hsize : bound source.length ≤ output.length) : (compress source output table).isSome := by
  have hroom : source.length + source.length / 255 + 16 ≤ output.length := bound_eq hmax ▸ hsize
  unfold compress
  rw [if_neg (by omega)]
  split_ifs with hshort
  · obtain ⟨w, hw⟩ := isSome_iff_exists.mp (((Writer.holds_nil output).last source).room
      (by rw [nil_append, length_literalBytes_eq]; omega))
    rw [hw]
    rfl
  have hloop := (Search.inv_nil source output { table with
    entry := fun i => if i < tableEntries then 0 else table.entry i }).loop (by omega)
    (Nat.zero_le _) (Nat.sub_le ..)
  obtain ⟨s, hs⟩ := isSome_iff_exists.mp (hloop.2 hmax htable hsize)
  obtain ⟨⟨sequences, hinv⟩, hanchor, -⟩ := hloop.1 hs
  have hlength := @length_sequences_le _ _ [] hinv.fit
  rw [hinv.expand, length_take_of_le hanchor, length_nil] at hlength
  obtain ⟨w, hw⟩ := isSome_iff_exists.mp ((hinv.writer.last (source.drop s.anchor)).room
    (by rw [length_append, length_literalBytes_eq, length_drop]; omega))
  simp only [hs, getRange_length hanchor, hw, bind, bind_some, isSome_some]

end Compressing

/-- Whatever `compress` writes, `decompress` turns back into the source. -/
theorem decompress_compress {source output output' buffer : List UInt8}
    {table table' : Table} {n : Nat}
    (h : compress source output table = some (n, output', table'))
    (hbuffer : buffer.length = source.length) :
    n ≤ output.length ∧ decompress (output'.take n) buffer = .ok source := by
  obtain ⟨b, hexpand, hfit, hle, hwritten⟩ := compress_block h
  rw [← hbuffer] at hfit
  exact ⟨hle, decompress_eq_ok.mpr ⟨b, 0, hwritten.symm, hfit, hexpand, hbuffer.symm, fun _ => rfl⟩⟩

/-- Twenty equal bytes are a literal, a match that overlaps itself and the last literals. -/
theorem repeated_decompress : ∃ n output' table',
    compress (replicate 20 97) (replicate 12 0) ⟨4096, fun _ => 7⟩ = some (n, output', table') ∧
    n ≤ 12 ∧ decompress (output'.take n) (replicate 20 0) = .ok (replicate 20 97) := by
  obtain ⟨⟨n, output', table'⟩, hcompress⟩ :
      ∃ r, compress (replicate 20 97) (replicate 12 0) ⟨4096, fun _ => 7⟩ = some r :=
    Option.isSome_iff_exists.mp (by decide +kernel)
  exact ⟨n, output', table', hcompress, decompress_compress hcompress rfl⟩

/-! ## The format and the bound -/

/-- The decoder accepts the bytes of the blocks that keep the rules and have the length of the
    output, and expands them byte by byte; the lower half of the last token is free, unless the
    output is empty. A buffer of the size `bound` is large enough for the encoder. -/
theorem decompress_blocks_compress_bound :
    (∀ input output r : List UInt8, decompress input output = .ok r ↔
      ∃ (b : Block) (extra : Nat), b.bytes extra = input ∧ Fit output.length 0 b.sequences ∧
        b.expand = r ∧ r.length = output.length ∧ (output = [] → extra = 0)) ∧
    ∀ (source output : List UInt8) (table : Table), source.length ≤ maxInput →
      tableEntries ≤ table.length → output.length = bound source.length →
      (compress source output table).isSome :=
  ⟨fun _ _ _ => decompress_eq_ok, fun _ _ _ hmax htable hsize =>
    compress_isSome hmax htable (Nat.le_of_eq hsize.symm)⟩

/-- A block whose match overlaps itself is expanded byte by byte, and twenty equal bytes fit into a
    buffer of the size `bound`. -/
theorem repeated_expands :
    decompress [0x1A, 97, 1, 0, 0x50, 97, 97, 97, 97, 97] (replicate 20 0) = .ok (replicate 20 97) ∧
    (compress (replicate 20 97) (replicate (bound 20) 0) ⟨4096, fun _ => 7⟩).isSome := by
  have hfits : Sequence.Fits 20 0 ⟨[97], 1, 14⟩ :=
    ⟨by decide, by decide, by decide, by decide, by decide, by decide⟩
  exact ⟨(decompress_blocks_compress_bound.1 _ _ _).mpr
      ⟨⟨[⟨[97], 1, 14⟩], replicate 5 97⟩, 0, by decide,
        ⟨hfits, trivial⟩, by decide, by decide, fun _ => rfl⟩,
    decompress_blocks_compress_bound.2 _ _ _ (by decide) (by decide) (by decide)⟩

/-- Neither do all tokens end a block alike, nor only those with an empty lower half: five in it is
    rejected where there is nothing to write, and accepted behind a literal. And there must be a
    table. -/
theorem last_token_not_uniform :
    (¬ ∀ input output r : List UInt8, decompress input output = .ok r ↔
      ∃ (b : Block) (extra : Nat), b.bytes extra = input ∧ Fit output.length 0 b.sequences ∧
        b.expand = r ∧ r.length = output.length) ∧
    (¬ ∀ input output r : List UInt8, decompress input output = .ok r ↔
      ∃ b : Block, b.bytes 0 = input ∧ Fit output.length 0 b.sequences ∧ b.expand = r ∧
        r.length = output.length) ∧
    compress [] (replicate (bound 0) 0) ⟨0, fun _ => 0⟩ = none := by
  refine ⟨fun h => ?_, fun h => ?_, rfl⟩
  · have hok := (h [5] [] []).mpr ⟨⟨[], []⟩, 5, rfl, trivial, rfl, rfl⟩
    revert hok
    decide
  · obtain ⟨⟨sequences, last⟩, hencode, hfit, hexpand, -⟩ := (h [21, 97] [0] [97]).mp (by decide)
    cases sequences with
    | nil =>
      obtain rfl : last = [97] := hexpand
      revert hencode
      decide
    | cons s rest => exact absurd hfit.1.matchStart (by simp [mfLimit])

end Tunix.Lz4
