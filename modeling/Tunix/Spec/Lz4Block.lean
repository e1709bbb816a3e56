import Mathlib.Data.List.Infix
import Tunix.ForStd.CopyBack
import Tunix.ForStd.Except
import Tunix.Kernel.Lz4

/-!
# The LZ4 block format

A block is a list of sequences and a last run of literals. Each sequence appends its literals to the
output and then copies from what is there; `Block.expand` is the output and `Block.bytes` the bytes
of the block. What the decoder reads at a position of its input is stated for each of its functions
with the bytes that stand there; together they say that `decompress` accepts the bytes of the blocks
that keep the rules for the end of a block, and no others, and gives their output
(`decompress_eq_ok`).
-/

namespace Tunix.Lz4

open List UInt8

/-! ## Blocks -/

structure Sequence where
  literals : List UInt8
  offset : Nat
  matchLength : Nat

structure Block where
  sequences : List Sequence
  last : List UInt8

/-- The bytes of a length, without what the token holds of it. -/
def restBytes (rest : Nat) : List UInt8 := replicate (rest / 255) 255 ++ [ofNat (rest % 255)]

/-- The bytes behind a token for a length that does not fit into its four bits. -/
def runBytes (n : Nat) : List UInt8 := if n ≥ runMask then restBytes (n - runMask) else []

/-- The token of a sequence with that many literals and bytes of its match beyond the fourth. -/
def token (literals extra : Nat) : UInt8 := ofNat (min literals runMask * 16 + min extra runMask)

/-- The bytes of a token and of the literals behind it. -/
def literalBytes (tok : UInt8) (literals : List UInt8) : List UInt8 :=
  tok :: (runBytes literals.length ++ literals)

/-- The bytes of a match: its offset, and what the token does not hold of its length. -/
def matchBytes (offset matched : Nat) : List UInt8 :=
  [ofNat (offset % 256), ofNat (offset / 256)] ++ runBytes (matched - minMatch)

def Sequence.encode (s : Sequence) : List UInt8 :=
  literalBytes (token s.literals.length (s.matchLength - minMatch)) s.literals ++
    matchBytes s.offset s.matchLength

/-- The bytes of a block whose last token has some `extra` in the place of a match length. -/
def Block.bytes (b : Block) (extra : Nat) : List UInt8 :=
  b.sequences.flatMap Sequence.encode ++ literalBytes (token b.last.length extra) b.last

/-- The output after a sequence. -/
def Sequence.expand (out : List UInt8) (s : Sequence) : List UInt8 :=
  (out ++ s.literals).copyBack s.offset s.matchLength

def Block.expand (b : Block) : List UInt8 := b.sequences.foldl Sequence.expand [] ++ b.last

/-- Where the match of a sequence begins that starts at `out`. -/
def Sequence.matchStart (s : Sequence) (out : Nat) : Nat := out + s.literals.length

/-- A sequence that starts at `out` refers to what is there, and keeps its distance from the end of
    an output of `total` bytes. -/
structure Sequence.Fits (total out : Nat) (s : Sequence) : Prop where
  offset_pos : 0 < s.offset
  offset_le : s.offset ≤ s.matchStart out
  offset_lt : s.offset < 2 ^ 16
  minMatch : minMatch ≤ s.matchLength
  matchStart : s.matchStart out + mfLimit ≤ total
  matchEnd : s.matchStart out + s.matchLength + lastLiterals ≤ total

/-- All sequences do, the first of them starting at `out`. -/
def Fit (total : Nat) : Nat → List Sequence → Prop
  | _, [] => True
  | out, s :: rest => s.Fits total out ∧ Fit total (s.matchStart out + s.matchLength) rest

/-- How long the output is behind a sequence. -/
theorem Sequence.Fits.length_expand {total : Nat} {out : List UInt8} {s : Sequence}
    (h : s.Fits total out.length) :
    (s.expand out).length = s.matchStart out.length + s.matchLength := by
  have hle : s.offset ≤ (out ++ s.literals).length := by
    rw [length_append]
    exact h.offset_le
  rw [Sequence.expand, length_copyBack h.offset_pos hle, length_append]
  rfl

/-! ## Slices -/

variable {source data output : List UInt8} {first : Nat}

/-- What `copyTo` does when the source has the length of the range. -/
theorem copyTo_eq {stop : Nat} (hle : stop ≤ data.length) (hlen : first + source.length = stop) :
    copyTo data first stop source = some (data.take first ++ source ++ data.drop stop) := by
  have htarget : ((data.drop first).take (stop - first)).length = source.length := by
    rw [length_take, length_drop]
    omega
  rw [copyTo, getRange, if_pos ⟨by omega, hle⟩, Option.map_some, copy, htarget, take_length,
    drop_of_length_le (le_of_eq htarget), append_nil]

/-- A copy is made exactly if there is room. -/
theorem copyTo_eq_some {written : List UInt8} :
    copyTo data first (first + source.length) source = some written ↔
      first + source.length ≤ data.length ∧
        written = data.take first ++ source ++ data.drop (first + source.length) := by
  by_cases hle : first + source.length ≤ data.length
  · rw [copyTo_eq hle rfl, Option.some.injEq, eq_comm]
    exact (and_iff_right hle).symm
  · have hnone : getRange data first (first + source.length) = none := if_neg fun hr => hle hr.2
    simp [copyTo, hnone, hle]

/-- A copy into a buffer keeps its length. -/
theorem length_written {stop : Nat} (hle : stop ≤ data.length)
    (hlen : first + source.length = stop) :
    (data.take first ++ source ++ data.drop stop).length = data.length := by
  simp only [length_append, length_take, length_drop]
  omega

/-- The buffer up to the end of the copy. -/
theorem take_written {stop : Nat} (hle : stop ≤ data.length) (hlen : first + source.length = stop) :
    (data.take first ++ source ++ data.drop stop).take stop = data.take first ++ source := by
  refine take_left' ?_
  rw [length_append, length_take]
  omega

/-! ## Copies -/

private theorem copyWithin_eq {pos origin step : Nat} (hle : pos + step ≤ output.length)
    (horigin : origin + step ≤ pos) :
    ∃ output', copyWithin output pos origin step = .ok output' ∧ output'.length = output.length ∧
      output'.take (pos + step) = output.take pos ++ ((output.take pos).drop origin).take step := by
  have htake : (output.take pos).length = pos := by
    rw [length_take]
    omega
  have hrange : getRange (output.take pos) origin (origin + step) =
      some (((output.take pos).drop origin).take step) := by
    rw [getRange, if_pos ⟨by omega, by omega⟩, Nat.add_sub_cancel_left]
  have hlen : pos + (((output.take pos).drop origin).take step).length = pos + step := by
    rw [length_take, length_drop]
    omega
  refine ⟨_, ?_, length_written hle hlen, take_written hle hlen⟩
  simp only [copyWithin, okOr, hrange, if_pos (show pos ≤ output.length by omega),
    copyTo_eq hle hlen,
    bind, Except.bind]

/-- A match that overlaps itself is copied in pieces of the length of its offset. -/
theorem overlapLoop_eq {offset matchEnd turns pos : Nat} (hpos : 0 < offset)
    (hoffset : offset ≤ pos) (hend : pos ≤ matchEnd) (hle : matchEnd ≤ output.length)
    (hturns : matchEnd - pos ≤ turns) :
    ∃ output', overlapLoop offset matchEnd turns pos (pos - offset) output = .ok output' ∧
      output'.length = output.length ∧
      output'.take matchEnd = (output.take pos).copyBack offset (matchEnd - pos) := by
  induction turns generalizing pos output with
  | zero =>
    obtain rfl : pos = matchEnd := by omega
    exact ⟨output, rfl, rfl, by rw [Nat.sub_self]; rfl⟩
  | succ turns ih =>
    by_cases hdone : pos = matchEnd
    · subst hdone
      refine ⟨output, ?_, rfl, by rw [Nat.sub_self]; rfl⟩
      rw [overlapLoop, if_neg (lt_irrefl _)]
    -- one piece, and the rest by induction
    have hstep : 0 < min offset (matchEnd - pos) := by omega
    generalize hs : min offset (matchEnd - pos) = step at hstep
    have htake : (output.take pos).length = pos := by
      rw [length_take]
      omega
    obtain ⟨mid, hmid, hmidlen, hmidtake⟩ := copyWithin_eq
      (show pos + step ≤ output.length by omega) (show pos - offset + step ≤ pos by omega)
    obtain ⟨output', hrest, hlen, hcopied⟩ := ih (show offset ≤ pos + step by omega)
      (by omega) (show matchEnd ≤ mid.length by omega) (by omega)
    refine ⟨output', ?_, hlen.trans hmidlen, ?_⟩
    · rw [overlapLoop, if_pos (by omega)]
      dsimp only
      rw [hs, hmid]
      rw [show pos - offset + step = pos + step - offset by omega]
      exact hrest
    · have hpiece : mid.take (pos + step) = (output.take pos).copyBack offset step := by
        rw [copyBack_eq_append (by omega) (by omega), hmidtake, htake]
      rw [hcopied, hpiece, ← copyBack_add]
      congr 1
      omega

private theorem copyMatch_eq {out offset matched : Nat} (hpos : 0 < offset)
    (hoffset : offset ≤ out) (hle : out + matched ≤ output.length) :
    ∃ output', copyMatch output out offset matched = .ok output' ∧ output'.length = output.length ∧
      output'.take (out + matched) = (output.take out).copyBack offset matched := by
  unfold copyMatch
  split
  · obtain ⟨output', hcopy, hlen, htake⟩ :=
      copyWithin_eq hle (show out - offset + matched ≤ out by omega)
    have hout : (output.take out).length = out := by
      rw [length_take]
      omega
    refine ⟨output', hcopy, hlen, ?_⟩
    rw [htake, copyBack_eq_append (by omega) (by omega), hout]
  · obtain ⟨output', hcopy, hlen, htake⟩ :=
      overlapLoop_eq hpos hoffset (Nat.le_add_right out matched)
      hle (Nat.le_of_eq (Nat.add_sub_cancel_left ..))
    rw [Nat.add_sub_cancel_left] at htake
    exact ⟨output', hcopy, hlen, htake⟩

/-! ## Bytes at a position -/

section Reading

variable {input : List UInt8} {pos : Nat} {pos' : Nat}

/-- Bytes that stand at a position, in two parts. -/
theorem append_prefix_drop {a b : List UInt8} :
    a ++ b <+: input.drop pos ↔ a <+: input.drop pos ∧ b <+: input.drop (pos + a.length) := by
  rw [← drop_drop]
  constructor
  · rintro ⟨tail, htail⟩
    rw [← htail, append_assoc, drop_left]
    exact ⟨prefix_append .., prefix_append ..⟩
  · rintro ⟨⟨tail, htail⟩, hb⟩
    rw [← htail, drop_left] at hb
    rw [← htail]
    exact (prefix_append_right_inj a).mpr hb

private theorem singleton_prefix_drop {byte : UInt8} :
    [byte] <+: input.drop pos ↔ input[pos]? = some byte := by
  rw [← head?_drop]
  cases input.drop pos <;> simp [eq_comm]

private theorem cons_prefix_drop {byte : UInt8} {rest : List UInt8} :
    byte :: rest <+: input.drop pos ↔ input[pos]? = some byte ∧ rest <+: input.drop (pos + 1) := by
  rw [← singleton_append, append_prefix_drop, singleton_prefix_drop, length_singleton]

private theorem okOr_eq_ok {α : Type} {value : Option α} {e : Error} {a : α} :
    okOr value e = .ok a ↔ value = some a := by
  cases value <;> simp [okOr]

private theorem getRange_eq_some {n : Nat} {slice : List UInt8} (hle : pos ≤ input.length) :
    getRange input pos (pos + n) = some slice ↔ slice.length = n ∧ slice <+: input.drop pos := by
  rw [getRange, Nat.add_sub_cancel_left, prefix_iff_eq_take]
  constructor
  · intro h
    obtain ⟨hin, hslice⟩ := Option.ite_none_right_eq_some.mp h
    obtain rfl := Option.some.inj hslice
    have hlen : ((input.drop pos).take n).length = n := by
      rw [length_take, length_drop]
      omega
    rw [hlen]
    exact ⟨rfl, rfl⟩
  · rintro ⟨rfl, heq⟩
    have hlen := congrArg length heq
    rw [length_take, length_drop] at hlen
    rw [if_pos ⟨by omega, by omega⟩, ← heq]

/-! ## Lengths -/

/-- A length behind a token takes a byte for each 255 and one more. -/
theorem restBytes_short {rest : Nat} (h : rest < 255) : restBytes rest = [ofNat rest] := by
  rw [restBytes, Nat.div_eq_of_lt h, Nat.mod_eq_of_lt h]
  rfl

/-- A byte of 255 says that more comes. -/
theorem restBytes_long (rest : Nat) : restBytes (rest + 255) = 255 :: restBytes rest := by
  rw [restBytes, restBytes, Nat.add_div_right rest (by decide), Nat.add_mod_right]
  rfl

/-- The halves of a byte. -/
theorem halves (b : UInt8) : (b >>> 4).toNat = b.toNat / 16 ∧ (b &&& 15).toNat = b.toNat % 16 := by
  constructor
  · exact Nat.shiftRight_eq_div_pow b.toNat 4
  · exact Nat.and_two_pow_sub_one_eq_mod b.toNat 4

/-- A length goes on as long as its bytes are 255. -/
private theorem readLengthLoop_eq_ok {turns length n : Nat} (hturns : input.length - pos ≤ turns) :
    readLengthLoop input turns pos length = .ok (pos', n) ↔ length ≤ n ∧
      restBytes (n - length) <+: input.drop pos ∧ pos' = pos + (restBytes (n - length)).length := by
  -- The turns left are at least the bytes left, so the loop does not run out.
  induction turns generalizing pos length with
  | zero =>
    rw [drop_of_length_le (by omega), prefix_nil]
    simp [readLengthLoop, restBytes]
  | succ turns ih =>
    rw [readLengthLoop, Except.bind_eq_ok]
    simp only [okOr_eq_ok]
    by_cases hlong : 255 ≤ n - length
    · -- the next byte is 255, and what it stands for is taken off
      have hrest : restBytes (n - length) = 255 :: restBytes (n - (length + 255)) := by
        rw [← restBytes_long]
        congr 1
        omega
      have hnext := @ih (pos + 1) (length + 255) (by omega)
      rw [hrest, cons_prefix_drop, length_cons]
      constructor
      · rintro ⟨byte, hget, hread⟩
        split_ifs at hread with hbyte
        · have := byte.toNat_lt
          simp only [Except.ok.injEq, Prod.mk.injEq] at hread
          have : byte.toNat = 255 := by omega
          exact absurd (UInt8.toNat_inj.mp this) hbyte
        · obtain rfl := not_not.mp hbyte
          obtain ⟨hle, hpre, hpos⟩ := hnext.mp hread
          exact ⟨by omega, ⟨hget, hpre⟩, by omega⟩
      · rintro ⟨hle, ⟨hget, hpre⟩, hpos⟩
        refine ⟨255, hget, ?_⟩
        exact hnext.mpr ⟨by omega, hpre, by omega⟩
    · have hrest : restBytes (n - length) = [ofNat (n - length)] := restBytes_short (by omega)
      have hnat : (ofNat (n - length)).toNat = n - length :=
        toNat_ofNat_of_lt' (by change _ < 256; omega)
      rw [hrest, singleton_prefix_drop, length_singleton]
      constructor
      · rintro ⟨byte, hget, hread⟩
        split_ifs at hread with hbyte
        · obtain ⟨rfl, rfl⟩ := hread
          rw [Nat.add_sub_cancel_left, UInt8.ofNat_toNat]
          exact ⟨Nat.le_add_right .., hget, rfl⟩
        · obtain rfl := not_not.mp hbyte
          have hle : length + 255 ≤ n := ((ih (by omega)).mp hread).1
          omega
      · rintro ⟨hle, hget, rfl⟩
        refine ⟨_, hget, ?_⟩
        have hne : ofNat (n - length) ≠ 255 := by
          intro heq
          rw [heq] at hnat
          exact hlong (le_of_eq hnat)
        rw [if_pos hne, hnat]
        congr 2
        omega

/-- The length in a token and behind it. -/
theorem tokenLength_eq_ok {first n : Nat} (hfirst : first ≤ runMask) :
    tokenLength input pos first = .ok (pos', n) ↔ first = min n runMask ∧
      runBytes n <+: input.drop pos ∧ pos' = pos + (runBytes n).length := by
  unfold tokenLength
  split_ifs with hmask
  · rw [readLength, readLengthLoop_eq_ok (le_refl _), hmask]
    have hmin : runMask = min n runMask ↔ runMask ≤ n := by omega
    rw [hmin]
    refine and_congr_right fun hn => ?_
    rw [runBytes, if_pos hn]
  · constructor
    · intro h
      obtain ⟨rfl, rfl⟩ := Prod.mk.inj (Except.ok.inj h)
      rw [runBytes, if_neg (by omega)]
      exact ⟨by omega, nil_prefix, rfl⟩
    · rintro ⟨hn, -, rfl⟩
      have hshort : ¬ n ≥ runMask := by omega
      rw [runBytes, if_neg hshort, hn, min_eq_left (by omega)]
      rfl

private theorem toNat_token (literals extra : Nat) :
    (token literals extra >>> 4).toNat = min literals runMask ∧
      (token literals extra &&& 15).toNat = min extra runMask := by
  have hlit : min literals runMask ≤ 15 := min_le_right ..
  have hext : min extra runMask ≤ 15 := min_le_right ..
  have htoken : (token literals extra).toNat = min literals runMask * 16 + min extra runMask :=
    toNat_ofNat_of_lt' (by change _ < 256; omega)
  rw [(halves _).1, (halves _).2, htoken]
  omega

private theorem toNat_low_le (tok : UInt8) : (tok &&& 15).toNat ≤ runMask := by
  rw [(halves tok).2]
  exact Nat.le_of_lt_succ (Nat.mod_lt _ (by decide))

/-- A byte is put together from its halves. -/
theorem eq_token {tok : UInt8} {literals extra : Nat}
    (hhigh : (tok >>> 4).toNat = min literals runMask)
    (hlow : (tok &&& 15).toNat = min extra runMask) : tok = token literals extra := by
  rw [(halves tok).1] at hhigh
  rw [(halves tok).2] at hlow
  rw [token, ← hhigh, ← hlow, Nat.div_add_mod' tok.toNat 16, UInt8.ofNat_toNat]

/-! ## Turns of the decoder -/

variable {out : Nat} {output : List UInt8}

/-- What literals that are read say of the bytes. -/
private theorem readLiterals_eq_ok {tok : UInt8} {out' : Nat} {output' : List UInt8} :
    readLiterals input pos out output = .ok (tok, pos', out', output') ↔ ∃ literals,
      (tok >>> 4).toNat = min literals.length runMask ∧
        literalBytes tok literals <+: input.drop pos ∧
      pos' = pos + (literalBytes tok literals).length ∧ out + literals.length ≤ output.length ∧
      out' = out + literals.length ∧
      output' = output.take out ++ literals ++ output.drop (out + literals.length) := by
  have hhalf : (tok >>> 4).toNat ≤ runMask := by
    have := tok.toNat_lt
    rw [(halves tok).1, runMask]
    omega
  -- the token and the bytes of the length end inside the input
  have hinside : ∀ {n}, input[pos]? = some tok → runBytes n <+: input.drop (pos + 1) →
      pos + 1 + (runBytes n).length ≤ input.length := by
    intro n htok hrun
    have hlt := (List.getElem?_eq_some_iff.mp htok).1
    have hle := hrun.length_le
    rw [length_drop] at hle
    omega
  simp only [literalBytes, cons_prefix_drop, append_prefix_drop, length_cons, length_append]
  simp only [readLiterals, Except.bind_eq_ok, okOr_eq_ok, Prod.exists]
  constructor
  · rintro ⟨tok, htok, p, n, hlen, literals, hliterals, middle, hmiddle, heq⟩
    cases heq
    obtain ⟨hn, hrun, rfl⟩ := (tokenLength_eq_ok hhalf).mp hlen
    obtain ⟨rfl, hpre⟩ := (getRange_eq_some (hinside htok hrun)).mp hliterals
    obtain ⟨hle, rfl⟩ := copyTo_eq_some.mp hmiddle
    exact ⟨literals, hn, ⟨htok, hrun, hpre⟩, by omega, hle, rfl, rfl⟩
  · rintro ⟨literals, hn, ⟨htok, hrun, hpre⟩, rfl, hle, rfl, rfl⟩
    refine ⟨tok, htok, _, _, (tokenLength_eq_ok hhalf).mpr ⟨hn, hrun, rfl⟩, literals,
      (getRange_eq_some (hinside htok hrun)).mpr ⟨rfl, hpre⟩, _, copyTo_eq_some.mpr ⟨hle, rfl⟩, ?_⟩
    congr 3
    omega

private theorem toNat_offset (low high : UInt8) :
    (low.toUInt16 ||| high.toUInt16 <<< 8).toNat = low.toNat + 256 * high.toNat := by
  have hlow := low.toNat_lt
  have hhigh := high.toNat_lt
  change low.toNat ||| high.toNat <<< 8 % 2 ^ 16 = _
  rw [Nat.shiftLeft_eq, Nat.mod_eq_of_lt (by omega), Nat.or_comm, mul_comm,
    ← Nat.two_pow_add_eq_or_of_lt (show low.toNat < 2 ^ 8 by omega)]
  rw [add_comm]

/-- What a match that is read says of the bytes. -/
private theorem readMatch_eq_ok {tok : UInt8} {out' : Nat} {output' : List UInt8}
    (hread : 0 < pos) :
    readMatch input tok pos out output = .ok (pos', out', output') ↔ ∃ offset matched,
      (0 < offset ∧ offset ≤ out ∧ offset < 2 ^ 16 ∧ minMatch ≤ matched ∧
        out + mfLimit ≤ output.length ∧ out + matched + lastLiterals ≤ output.length) ∧
      (tok &&& 15).toNat = min (matched - minMatch) runMask ∧
      matchBytes offset matched <+: input.drop pos ∧ pos + (3 + lastLiterals) ≤ input.length ∧
      pos' = pos + (matchBytes offset matched).length ∧ out' = out + matched ∧
      copyMatch output out offset matched = .ok output' := by
  have hhalf := toNat_low_le tok
  simp only [matchBytes, append_prefix_drop, cons_prefix_drop, nil_prefix, and_true, length_append,
    length_cons, length_nil]
  unfold readMatch
  constructor
  · intro h
    split_ifs at h with hfar
    simp only [Except.bind_eq_ok, okOr_eq_ok] at h
    obtain ⟨low, hlow, high, hhigh, h⟩ := h
    generalize hoffset : (low.toUInt16 ||| high.toUInt16 <<< 8).toNat = offset at h
    rw [toNat_offset] at hoffset
    have := low.toNat_lt
    have := high.toNat_lt
    split_ifs at h with hzero
    simp only [Except.bind_eq_ok, Prod.exists] at h
    obtain ⟨p, extra, hlen, h⟩ := h
    obtain ⟨hextra, hrun, rfl⟩ := (tokenLength_eq_ok hhalf).mp hlen
    split_ifs at h with hend
    obtain ⟨output', hcopy, heq⟩ := Except.bind_eq_ok.mp h
    cases heq
    -- The two bytes of the offset are its digits.
    have hbytes : ofNat (offset % 256) = low ∧ ofNat (offset / 256) = high := by
      rw [show offset % 256 = low.toNat by omega, show offset / 256 = high.toNat by omega]
      exact ⟨UInt8.ofNat_toNat, UInt8.ofNat_toNat⟩
    simp only [mfLimit, lastLiterals, minMatch] at hfar hend ⊢
    refine ⟨offset, extra + 4, ⟨by omega, by omega, by omega, by omega, by omega, by omega⟩, hextra,
      ⟨⟨?_, ?_⟩, hrun⟩, by omega, ?_, rfl, hcopy⟩
    · rw [hbytes.1]
      exact hlow
    · rw [hbytes.2]
      exact hhigh
    · rw [Nat.add_sub_cancel, add_assoc]
  · rintro ⟨offset, matched, ⟨hpos, hle, hsmall, hmin, hstart, hend⟩, hextra,
      ⟨⟨hlow, hhigh⟩, hrun⟩, hroom,
      rfl, rfl, hcopy⟩
    have hoffset : ((ofNat (offset % 256)).toUInt16 |||
        (ofNat (offset / 256)).toUInt16 <<< 8).toNat = offset := by
      rw [toNat_offset, toNat_ofNat', toNat_ofNat']
      omega
    have hlen : tokenLength input (pos + 2) (tok &&& 15).toNat =
        .ok (pos + (2 + (runBytes (matched - minMatch)).length), matched - minMatch) :=
      (tokenLength_eq_ok hhalf).mpr ⟨hextra, hrun, (add_assoc ..).symm⟩
    have hmatched : matched - minMatch + minMatch = matched := Nat.sub_add_cancel hmin
    rw [if_neg (by omega)]
    simp only [hlow, hhigh, okOr, hoffset, bind, Except.bind]
    rw [if_neg (by omega)]
    simp only [hlen, hmatched, hcopy]
    rw [if_neg (by omega)]

end Reading

/-! ## Whole blocks -/

/-- From the end of the last match there are enough literals. -/
theorem lastLiterals_le {total : Nat} {sequences : List Sequence} {out last : List UInt8}
    (hfit : Fit total out.length sequences) (hout : out.length + lastLiterals ≤ total)
    (htotal : (sequences.foldl Sequence.expand out ++ last).length = total) :
    lastLiterals ≤ last.length := by
  induction sequences generalizing out with
  | nil =>
    rw [foldl_nil, length_append] at htotal
    omega
  | cons s rest ih =>
    obtain ⟨hs, hrest⟩ := hfit
    rw [← hs.length_expand] at hrest
    exact ih hrest (by rw [hs.length_expand]; exact hs.matchEnd) htotal

private theorem Sequence.length_encode_pos (s : Sequence) : 0 < s.encode.length := Nat.succ_pos _

private theorem length_literalBytes (tok : UInt8) (literals : List UInt8) :
    literals.length < (literalBytes tok literals).length := by
  simp only [literalBytes, length_cons, length_append]
  omega

section Blocks

variable {input output : List UInt8} {turns pos out : Nat}

/-- A turn of the decoder that goes on has read a sequence. -/
theorem sequence_of_turn {tok : UInt8} {p o pos' out' : Nat} {middle output' : List UInt8}
    (hread : readLiterals input pos out output = .ok (tok, p, o, middle))
    (hmatch : readMatch input tok p o middle = .ok (pos', out', output')) :
    ∃ s : Sequence, s.Fits output.length out ∧ s.encode <+: input.drop pos ∧
      pos' = pos + s.encode.length ∧ out' = s.matchStart out + s.matchLength ∧
      output'.length = output.length ∧ output'.take out' = s.expand (output.take out) := by
  obtain ⟨literals, hhigh, hpre, rfl, hle, rfl, hmiddle⟩ := readLiterals_eq_ok.mp hread
  have hlen := length_written hle rfl
  have htake := take_written hle rfl
  rw [← hmiddle] at hlen htake
  have hpos : 0 < pos + (literalBytes tok literals).length := Nat.add_pos_right pos (Nat.succ_pos _)
  obtain ⟨offset, matched, ⟨hoffset, hback, hsmall, hmin, hstart, hend⟩, hlow, hbytes, -,
      rfl, rfl, hcopy⟩ :=
    (readMatch_eq_ok hpos).mp hmatch
  obtain ⟨copied, hcopied, hlen', htake'⟩ :=
    copyMatch_eq hoffset hback (show out + literals.length + matched ≤ middle.length by omega)
  obtain rfl := Except.ok.inj (hcopy.symm.trans hcopied)
  rw [hlen] at hstart hend
  -- The token has no freedom left: both halves are those of the lengths.
  obtain rfl := eq_token hhigh hlow
  refine ⟨⟨literals, offset, matched⟩, ⟨hoffset, hback, hsmall, hmin, hstart, hend⟩, ?_, ?_, rfl,
    hlen'.trans hlen, ?_⟩
  · rw [Sequence.encode]
    exact append_prefix_drop.mpr ⟨hpre, hbytes⟩
  · rw [Sequence.encode, length_append, add_assoc]
  · rw [htake', htake]
    rfl

/-- Where the bytes of a sequence stand, and enough behind them, a turn of the decoder reads
    them. -/
theorem turn_of_sequence {s : Sequence} (hfits : s.Fits output.length out)
    (hpre : s.encode <+: input.drop pos) (hrest : pos + s.encode.length + 6 ≤ input.length) :
    ∃ output', output'.length = output.length ∧
      output'.take (s.matchStart out + s.matchLength) = s.expand (output.take out) ∧
      decompressLoop input (turns + 1) pos out output = decompressLoop input turns
        (pos + s.encode.length) (s.matchStart out + s.matchLength) output' := by
  obtain ⟨literals, offset, matched⟩ := s
  obtain ⟨hoffset, hback, hsmall, hmin, hstart, hend⟩ := hfits
  simp only [Sequence.encode, Sequence.matchStart] at hpre hrest hback hstart hend ⊢
  obtain ⟨hliterals, hbytes⟩ := append_prefix_drop.mp hpre
  have hle : out + literals.length ≤ output.length := by omega
  have hlen := length_written hle rfl
  have htake := take_written hle rfl
  have hread := readLiterals_eq_ok.mpr ⟨literals, (toNat_token ..).1, hliterals, rfl, hle, rfl, rfl⟩
  generalize output.take out ++ literals ++ output.drop (out + literals.length) = middle
    at hlen htake hread
  -- The match is copied from what has been written, the literals included.
  obtain ⟨output', hcopy, hlen', htake'⟩ :=
    copyMatch_eq hoffset hback (show out + literals.length + matched ≤ middle.length by omega)
  rw [length_append] at hrest ⊢
  have hbehind : 2 ≤ (matchBytes offset matched).length := by
    rw [matchBytes, length_append]
    exact Nat.le_add_right ..
  have hpos : 0 <
      pos + (literalBytes (token literals.length (matched - minMatch)) literals).length :=
    Nat.add_pos_right pos (Nat.succ_pos _)
  have hmatch := (readMatch_eq_ok hpos).mpr
    ⟨offset, matched, ⟨hoffset, hback, hsmall, hmin, hlen ▸ hstart, hlen ▸ hend⟩,
      (toNat_token literals.length (matched - minMatch)).2, hbytes,
      by simp only [lastLiterals]; omega, rfl, rfl, hcopy⟩
  refine ⟨output', hlen'.trans hlen, ?_, ?_⟩
  · rw [htake', htake]
    rfl
  · rw [decompressLoop, hread]
    simp only [bind, Except.bind]
    rw [if_neg (by omega), hmatch, add_assoc]

/-- What the loop accepts at a position is the rest of a block, and it adds its output to what is
    there. -/
theorem decompressLoop_eq_ok {r : List UInt8} (hout : out ≤ output.length)
    (hturns : input.length - pos ≤ turns) :
    decompressLoop input turns pos out output = .ok r ↔ ∃ (b : Block) (extra : Nat),
      b.bytes extra = input.drop pos ∧ Fit output.length out b.sequences ∧
      b.sequences.foldl Sequence.expand (output.take out) ++ b.last = r ∧
      r.length = output.length := by
  induction turns generalizing pos out output with
  | zero =>
    rw [drop_of_length_le (by omega)]
    simp [decompressLoop, Block.bytes, literalBytes]
  | succ turns ih =>
    constructor
    · intro h
      rw [decompressLoop, Except.bind_eq_ok] at h
      obtain ⟨⟨tok, p, o, middle⟩, hread, hrest⟩ := h
      dsimp only at hrest
      split_ifs at hrest with hend hfull
      · -- the input ends behind the literals
        obtain ⟨literals, hhigh, hpre, rfl, hle, rfl, hmiddle⟩ := readLiterals_eq_ok.mp hread
        have hlen := length_written hle rfl
        have htake := take_written hle rfl
        rw [← hmiddle] at hlen htake
        obtain rfl := Except.ok.inj hrest
        rw [hfull, take_length] at htake
        refine ⟨⟨[], literals⟩, (tok &&& 15).toNat, ?_, trivial, htake.symm, hlen⟩
        have htok := eq_token hhigh (min_eq_left (toNat_low_le tok)).symm
        rw [Block.bytes, flatMap_nil, nil_append, ← htok]
        refine hpre.eq_of_length ?_
        rw [length_drop]
        omega
      · obtain ⟨⟨pos', out', output'⟩, hmatch, hloop⟩ := Except.bind_eq_ok.mp hrest
        obtain ⟨s, hs, hpre, rfl, rfl, hlen, htake⟩ := sequence_of_turn hread hmatch
        dsimp only at hloop
        have hend := hs.matchEnd
        have hencode := s.length_encode_pos
        obtain ⟨b, extra, hb, hfit, hexpand, hr⟩ := (ih (by omega) (by omega)).mp hloop
        rw [hlen] at hfit hr
        rw [htake] at hexpand
        refine ⟨⟨s :: b.sequences, b.last⟩, extra, ?_, ⟨hs, hfit⟩, hexpand, hr⟩
        obtain ⟨tail, htail⟩ := hpre
        rw [← drop_drop, ← htail, drop_left] at hb
        rw [← htail, ← hb, Block.bytes, flatMap_cons, append_assoc]
        rfl
    · rintro ⟨⟨sequences, last⟩, extra, hb, hfit, rfl, hr⟩
      cases sequences with
      | nil =>
        rw [foldl_nil, length_append, length_take_of_le hout] at hr
        have hbytes : literalBytes (token last.length extra) last = input.drop pos := hb
        have hread :=
          readLiterals_eq_ok.mpr
            ⟨last, (toNat_token ..).1, ⟨[], by rw [append_nil]; exact hbytes⟩, rfl,
          le_of_eq hr, rfl, rfl⟩
        have hlen := congrArg length hbytes
        have hpos := length_literalBytes (token last.length extra) last
        rw [length_drop] at hlen
        rw [decompressLoop, hread]
        simp only [bind, Except.bind]
        rw [if_pos (by omega), if_pos (by rw [length_written (le_of_eq hr) rfl, hr]), hr,
          drop_length, append_nil]
        rfl
      | cons s rest =>
        obtain ⟨hs, hfits⟩ := id hfit
        have hend := hs.matchEnd
        have hencode := s.length_encode_pos
        have hcons : s.encode ++ Block.bytes ⟨rest, last⟩ extra = input.drop pos := by
          rw [← hb, Block.bytes, Block.bytes, flatMap_cons, append_assoc]
        have hrest : Block.bytes ⟨rest, last⟩ extra = input.drop (pos + s.encode.length) := by
          rw [← drop_drop, ← hcons, drop_left]
        -- the rest of the block is long enough for the decoder to go on
        have hroom : pos + s.encode.length + 6 ≤ input.length := by
          have hlast := lastLiterals_le ((length_take_of_le hout).symm ▸ hfit)
            (by rw [length_take_of_le hout]; simp only [Sequence.matchStart] at hend; omega) hr
          have hbytes := congrArg length hrest
          have hlong := length_literalBytes (token last.length extra) last
          rw [Block.bytes, length_append, length_drop] at hbytes
          simp only [lastLiterals] at hlast
          dsimp only at hbytes
          omega
        obtain ⟨output', hlen, htake, hturn⟩ :=
          @turn_of_sequence input output turns pos out s hs ⟨_, hcons⟩ hroom
        rw [hturn]
        refine (ih (by omega) (by omega)).mpr
          ⟨⟨rest, last⟩, extra, hrest, hlen.symm ▸ hfits, ?_, hlen.symm ▸ hr⟩
        rw [htake]
        rfl

/-- `decompress` accepts the bytes of the blocks that keep the rules for the end of a block and have
    the length of the output, and gives their output. It does not look at the lower half of the last
    token, unless there is nothing to write. -/
theorem decompress_eq_ok {r : List UInt8} :
    decompress input output = .ok r ↔ ∃ (b : Block) (extra : Nat), b.bytes extra = input ∧
      Fit output.length 0 b.sequences ∧ b.expand = r ∧ r.length = output.length ∧
      (output = [] → extra = 0) := by
  unfold decompress
  split_ifs with hnone hempty hzero
  · subst hnone
    simp [Block.bytes, literalBytes]
  · obtain rfl := length_eq_zero_iff.mp hempty
    subst hzero
    constructor
    · intro h
      obtain rfl := Except.ok.inj h
      exact ⟨⟨[], []⟩, 0, rfl, trivial, rfl, rfl, fun _ => rfl⟩
    · rintro ⟨b, extra, -, -, -, hr, -⟩
      rw [length_eq_zero_iff.mp hr]
  · obtain rfl := length_eq_zero_iff.mp hempty
    refine iff_of_false nofun ?_
    rintro ⟨⟨sequences, last⟩, extra, rfl, hfit, rfl, hr, hextra⟩
    -- only the block without sequences and literals is that short
    cases sequences with
    | nil =>
      obtain rfl : last = [] := length_eq_zero_iff.mp hr
      rw [hextra rfl] at hzero
      exact hzero rfl
    | cons s rest => exact absurd hfit.1.matchStart (by simp [mfLimit])
  · rw [decompressLoop_eq_ok (Nat.zero_le _) (Nat.sub_le ..)]
    have hne : output ≠ [] := fun h => hempty (by rw [h]; rfl)
    simp [hne, Block.expand]

end Blocks

end Tunix.Lz4
