import Mathlib.Data.List.Basic

/-!
# Copies from what is already there

The second half of a Lempel-Ziv step: an output is made longer by bytes from `offset` places before
its end, one after the other, so that the copy may run into what it has itself produced. A copy can
be made in pieces, a piece not longer than the offset is a copy of a slice, and copying repeats a
list that agrees with itself at that distance.
-/

namespace List

variable {α : Type*}

/-- The list, with `n` more elements, each the one `offset` places before it. -/
def copyBack (out : List α) (offset : Nat) : Nat → List α
  | 0 => out
  | n + 1 =>
    let done := copyBack out offset n
    done ++ (done[done.length - offset]?).toList

/-- Each byte that is copied makes the output longer by one. -/
theorem length_copyBack {out : List α} {offset : Nat} (hpos : 0 < offset)
    (hle : offset ≤ out.length)
    (n : Nat) : (out.copyBack offset n).length = out.length + n := by
  induction n with
  | zero => rfl
  | succ n ih =>
    have hlt : (out.copyBack offset n).length - offset < (out.copyBack offset n).length := by omega
    rw [copyBack, length_append, getElem?_eq_getElem hlt, Option.toList_some, length_singleton, ih]
    omega

/-- A copy can be made in two pieces. -/
theorem copyBack_add (out : List α) (offset m n : Nat) :
    out.copyBack offset (m + n) = (out.copyBack offset m).copyBack offset n := by
  induction n with
  | zero => rfl
  | succ n ih => rw [← Nat.add_assoc, copyBack, copyBack, ih]

/-- A piece that does not reach what it produces is a slice. -/
theorem copyBack_eq_append {out : List α} {offset n : Nat} (hn : n ≤ offset)
    (hle : offset ≤ out.length) :
    out.copyBack offset n = out ++ (out.drop (out.length - offset)).take n := by
  induction n with
  | zero => simp [copyBack]
  | succ n ih =>
    rw [copyBack, ih (by omega)]
    have hlen : ((out.drop (out.length - offset)).take n).length = n := by
      rw [length_take, length_drop]
      omega
    have hindex : out.length + n - offset < out.length := by omega
    have hget : (out ++ (out.drop (out.length - offset)).take n)[out.length + n - offset]? =
        (out.drop (out.length - offset))[n]? := by
      rw [getElem?_append_left hindex, getElem?_drop]
      congr 1
      omega
    rw [length_append, hlen, hget, append_assoc, ← take_add_one]

/-- Copying goes on in a list that agrees with itself at the distance of the offset. -/
theorem copyBack_take {source : List α} {pos offset n : Nat} (hpos : 0 < offset)
    (hle : offset ≤ pos)
    (hlen : pos + n ≤ source.length)
    (heq : ∀ i < n, source[pos - offset + i]? = source[pos + i]?) :
    (source.take pos).copyBack offset n = source.take (pos + n) := by
  induction n with
  | zero => rfl
  | succ n ih =>
    rw [copyBack, ih (by omega) fun i hi => heq i (by omega)]
    have htake : (source.take (pos + n)).length = pos + n := by
      rw [length_take]
      omega
    have hindex : pos + n - offset = pos - offset + n := by omega
    rw [htake, hindex, getElem?_take_of_lt (by omega), heq n (by omega), ← take_add_one]
    rfl

end List
