import Mathlib.Data.List.Pairwise
import Mathlib.Tactic.SplitIfs
import Mathlib.Tactic.Tauto
import Tunix.ForStd.LastWrite
import Tunix.ForStd.Run
import Tunix.Kernel.PosixLock

/-!
# What record locks mean

The locks of a file stand for a map from owners and bytes to lock types. `apply_spec` says that a
request writes its type over its range in this map, however many locks it splits, trims, deletes or
merges, and that it never needs a third record. In every run the map is that of the requests that
succeeded, the last one for each byte, and a byte that one owner has locked for writing is not
locked by another.
-/

namespace Tunix.PosixLock

open List

variable {byte owner : Nat} {s : State} {lock : Lock} {locks : List Lock} {request : Request}

/-! ## Locks as sets of bytes -/

def Lock.In (lock : Lock) (byte : Nat) : Prop := lock.start ≤ byte ∧ byte ≤ lock.end_

def Request.In (request : Request) (byte : Nat) : Prop := request.start ≤ byte ∧ byte ≤ request.end_

structure Lock.Valid (lock : Lock) : Prop where
  start_le : lock.start ≤ lock.end_
  end_le : lock.end_ ≤ lockEnd
  type : lock.type ≠ .unlock

/-- Two locks of one owner have no byte in common. -/
def Apart (a b : Lock) : Prop := a.owner = b.owner → ∀ byte, a.In byte → ¬b.In byte

/-- The list of locks of a file. -/
structure Valid (locks : List Lock) : Prop where
  each : ∀ lock ∈ locks, lock.Valid
  apart : locks.Pairwise Apart

instance : Std.Symm Apart where
  symm _ _ h := fun howner byte hb ha => h howner.symm byte ha hb

private theorem Valid.apart_of_mem {rest : List Lock} (h : Valid (lock :: rest)) {other : Lock}
    (hmem : other ∈ rest) : Apart lock other := (pairwise_cons.mp h.apart).1 other hmem

private theorem Valid.tail {lock : Lock} {rest : List Lock} (h : Valid (lock :: rest)) :
    Valid rest where
  each l hl := h.each l (mem_cons_of_mem _ hl)
  apart := (pairwise_cons.mp h.apart).2

/-- The lock is one of the owner and has the byte. -/
theorem holds_iff : lock.holds owner byte = true ↔ lock.owner = owner ∧ lock.In byte := by
  simp [Lock.holds, Lock.In]

/-- An owner holds on a byte what its lock there says. -/
theorem Valid.held_eq (h : Valid locks) (hmem : lock ∈ locks) (howner : lock.owner = owner)
    (hin : lock.In byte) :
    held locks owner byte = lock.type := by
  unfold held
  cases hfind : locks.find? (·.holds owner byte) with
  | none =>
    have hnot := find?_eq_none.mp hfind lock hmem
    exact absurd (holds_iff.mpr ⟨howner, hin⟩) hnot
  | some found =>
    -- The lock found covers the byte too, so it is the same one.
    have hholds := find?_some hfind
    obtain ⟨howner', hin'⟩ := holds_iff.mp hholds
    have hmem' := mem_of_find?_eq_some hfind
    by_cases heq : found = lock
    · rw [heq]
    · exact absurd hin (h.apart.forall hmem' hmem heq (howner'.trans howner.symm) byte hin')

private theorem held_eq_unlock (h : ∀ lock ∈ locks, lock.owner = owner → ¬lock.In byte) :
    held locks owner byte = .unlock := by
  unfold held
  have hnone : locks.find? (·.holds owner byte) = none := by
    rw [find?_eq_none]
    intro lock hmem hholds
    obtain ⟨howner, hin⟩ := holds_iff.mp hholds
    exact h lock hmem howner hin
  rw [hnone]

/-- A type other than `unlock` comes from a lock. -/
theorem exists_of_held (h : held locks owner byte ≠ .unlock) :
    ∃ lock ∈ locks, lock.owner = owner ∧ lock.In byte ∧ lock.type = held locks owner byte := by
  unfold held at h ⊢
  cases hfind : locks.find? (·.holds owner byte) with
  | none =>
    rw [hfind] at h
    exact absurd rfl h
  | some lock =>
    have hholds := find?_some hfind
    obtain ⟨howner, hin⟩ := holds_iff.mp hholds
    exact ⟨lock, mem_of_find?_eq_some hfind, howner, hin, rfl⟩

/-! ## What remains of a lock -/

/-- The request is for an inner part of a lock of its owner. -/
def Request.Inside (request : Request) (lock : Lock) : Prop :=
  lock.owner = request.owner ∧ lock.start < request.start ∧ request.end_ < lock.end_

instance (request : Request) (lock : Lock) : Decidable (request.Inside lock) :=
  inferInstanceAs (Decidable (_ ∧ _ ∧ _))

/-- A lock of the same type that the new one takes in. -/
def Request.Merges (request : Request) (start end_ : Nat) (lock : Lock) : Prop :=
  lock.owner = request.owner ∧ request.type ≠ .unlock ∧ lock.type = request.type ∧
    touches start end_ lock = true

instance (request : Request) (start end_ : Nat) (lock : Lock) :
    Decidable (request.Merges start end_ lock) :=
  inferInstanceAs (Decidable (_ ∧ _ ∧ _ ∧ _))

/-- What remains of a lock that is not merged. -/
def remains (request : Request) (lock : Lock) : List Lock :=
  if lock.owner ≠ request.owner ∨ ¬overlaps request.start request.end_ lock then [lock]
  else
    (if lock.start < request.start then [{ lock with end_ := previous request.start }] else []) ++
      (if request.end_ < lock.end_ then [{ lock with start := next request.end_ }] else [])

private theorem applyLoop_cons (request : Request) (lock : Lock) (rest : List Lock)
    (start end_ spare : Nat) :
    applyLoop request (lock :: rest) start end_ spare = if request.Merges start end_ lock then
        applyLoop request rest (min lock.start start) (max lock.end_ end_) spare
      else if request.Inside lock then
        match spare with
        | 0 => none
        | spare + 1 => (applyLoop request rest start end_ spare).map (·.keep (remains request lock))
      else (applyLoop request rest start end_ spare).map (·.keep (remains request lock)) := by
  have hkeep : ∀ o : Option Applied, o.map (·.keep []) = o := by
    intro o
    cases o <;> rfl
  have hmin : (if lock.start < start then lock.start else start) = min lock.start start := by
    split_ifs <;> omega
  have hmax : (if end_ < lock.end_ then lock.end_ else end_) = max lock.end_ end_ := by
    split_ifs <;> omega
  rw [applyLoop.eq_def request (lock :: rest)]
  dsimp only
  rw [hmin, hmax]
  by_cases howner : lock.owner ≠ request.owner
  · simp [Request.Merges, Request.Inside, remains, howner]
  rw [not_not] at howner
  by_cases hmerge : request.type ≠ .unlock ∧ lock.type = request.type ∧ touches start end_ lock
  · simp [Request.Merges, howner, hmerge]
  have hnot : ¬request.Merges start end_ lock := fun h => hmerge h.2
  by_cases hover : overlaps request.start request.end_ lock
  · by_cases hstart : lock.start < request.start <;> by_cases hend : request.end_ < lock.end_ <;>
      simp only [Request.Inside, remains, howner, hmerge, hnot, hover, hstart, hend]
        <;> cases spare <;>
      simp [hkeep]
  -- a lock that does not overlap cannot hold the request inside
  have hinside : ¬request.Inside lock := by
    rintro ⟨_, h1, h2⟩
    have hle := request.start_le
    apply hover
    simp only [overlaps, decide_eq_true_eq]
    omega
  simp [remains, howner, hmerge, hnot, hover, hinside]

private theorem next_eq {x y : Nat} (h : x < y) (hy : y ≤ lockEnd) : next x = x + 1 := by
  unfold next lockEnd at *
  omega

private theorem previous_eq {x y : Nat} (h : y < x) (hx : x ≤ lockEnd) : previous x = x - 1 := by
  unfold previous lockEnd at *
  omega

/-- The parts of a lock outside the request. -/
structure Parts (request : Request) (lock : Lock) (parts : List Lock) : Prop where
  valid : Valid parts
  same : ∀ part ∈ parts, part.owner = lock.owner ∧ part.type = lock.type
  bytes : ∀ byte, (∃ part ∈ parts, part.In byte) ↔
    lock.In byte ∧ ¬(lock.owner = request.owner ∧ request.In byte)

private theorem mem_ite_singleton {c : Prop} [Decidable c] {p : Lock} :
    p ∈ (if c then [lock] else []) ↔ c ∧ p = lock := by
  split_ifs with h <;> simp [h]

/-- What is left of a lock are its bytes outside of the request. -/
private theorem remains_parts (request : Request) (hlock : lock.Valid) :
    Parts request lock (remains request lock) := by
  have hle := request.start_le
  have hend := request.end_le
  obtain ⟨hstart, hend', htype⟩ := hlock
  unfold remains
  split
  -- The lock is not touched.
  · next hout =>
    refine ⟨⟨by simpa using ⟨hstart, hend', htype⟩, pairwise_singleton _ _⟩, by simp, ?_⟩
    intro byte
    simp only [mem_singleton, exists_eq_left, iff_self_and, not_and]
    intro hin howner hreq
    obtain hout | hout := hout
    · exact hout howner
    apply hout
    simp only [overlaps, decide_eq_true_eq]
    unfold Lock.In at hin
    unfold Request.In at hreq
    omega
  · next hout =>
    have howner : lock.owner = request.owner := by tauto
    simp only [overlaps, decide_eq_true_eq, howner] at hout
    -- What is left is the part before the request and the part behind it, if there are any.
    have hprev : lock.start < request.start → previous request.start = request.start - 1 :=
      fun h => previous_eq h (Nat.le_trans hle hend)
    have hnext : request.end_ < lock.end_ → next request.end_ = request.end_ + 1 :=
      fun h => next_eq h hend'
    refine ⟨⟨?_, ?_⟩, ?_, ?_⟩
    · intro part hpart
      obtain ⟨h, rfl⟩ | ⟨h, rfl⟩ :=
        (mem_append.mp hpart).imp mem_ite_singleton.mp mem_ite_singleton.mp
      · exact ⟨by show lock.start ≤ previous _; omega, by show previous _ ≤ _; omega, htype⟩
      · exact ⟨by show next _ ≤ lock.end_; omega, hend', htype⟩
    · refine pairwise_append.mpr ⟨by split_ifs <;> simp, by split_ifs <;> simp, ?_⟩
      intro front hfront back hback _ byte hin hin'
      obtain ⟨h, rfl⟩ := mem_ite_singleton.mp hfront
      obtain ⟨h', rfl⟩ := mem_ite_singleton.mp hback
      simp only [Lock.In] at hin hin'
      omega
    · intro part hpart
      obtain ⟨_, rfl⟩ | ⟨_, rfl⟩ :=
        (mem_append.mp hpart).imp mem_ite_singleton.mp mem_ite_singleton.mp <;>
        exact ⟨rfl, rfl⟩
    · intro byte
      simp only [mem_append, mem_ite_singleton, or_and_right, exists_or, and_assoc, exists_and_left,
        exists_eq_left, Lock.In, Request.In, howner, true_and]
      omega

/-! ## The loop -/

/-- Two ranges that touch have no byte between them. -/
theorem touches_spec {start end_ : Nat} (hlock : lock.Valid) (hle : start ≤ end_)
    (hend : end_ ≤ lockEnd) (h : touches start end_ lock = true) (hlo : min lock.start start ≤ byte)
    (hhi : byte ≤ max lock.end_ end_) :
    (start ≤ byte ∧ byte ≤ end_) ∨ lock.In byte := by
  obtain ⟨hstart, hend', _⟩ := hlock
  have h : ¬(lock.end_ ≠ lockEnd ∧ next lock.end_ < start) ∧
      ¬(end_ ≠ lockEnd ∧ next end_ < lock.start) :=
    of_decide_eq_true h
  unfold Lock.In
  unfold next lockEnd at *
  omega

/-- What the loop makes of the locks `rest` with the range that it has reached. -/
structure Looped (request : Request) (rest : List Lock) (start end_ : Nat) (a : Applied) :
    Prop where
  valid : Valid a.locks
  piece : ∀ p ∈ a.locks, ∃ l ∈ rest, p.owner = l.owner ∧ p.type = l.type ∧
    ∀ byte, p.In byte → l.In byte ∧ ¬(l.owner = request.owner ∧ request.In byte)
  start_le : a.start ≤ start
  le_end : end_ ≤ a.end_
  end_le : a.end_ ≤ lockEnd
  /-- The new range has only bytes of the old one and of locks that were merged. -/
  covered : ∀ byte, a.start ≤ byte → byte ≤ a.end_ → (start ≤ byte ∧ byte ≤ end_) ∨
    ∃ l ∈ rest, l.owner = request.owner ∧ l.type = request.type ∧ l.In byte
  /-- No byte outside the request is lost. -/
  kept : ∀ l ∈ rest, ∀ byte, l.In byte → (l.owner = request.owner ∧ request.In byte) ∨
    (∃ p ∈ a.locks, p.owner = l.owner ∧ p.type = l.type ∧ p.In byte) ∨
    (request.type ≠ .unlock ∧ l.owner = request.owner ∧ l.type = request.type ∧
      a.start ≤ byte ∧ byte ≤ a.end_)
  outside : ∀ p ∈ a.locks, p.owner = request.owner → ∀ byte, p.In byte →
    ¬(a.start ≤ byte ∧ byte ≤ a.end_)

/-- What the loop needs of the range that it has reached: it has the request, and no byte of another
    lock but those of the request. -/
structure Reached (request : Request) (rest : List Lock) (start end_ : Nat) : Prop where
  start_le : start ≤ request.start
  le_end : request.end_ ≤ end_
  end_le : end_ ≤ lockEnd
  own : ∀ l ∈ rest, l.owner = request.owner → ∀ byte, l.In byte → start ≤ byte →
    byte ≤ end_ → request.In byte

private theorem Reached.tail {request : Request} {lock : Lock} {rest : List Lock} {start end_ : Nat}
    (h : Reached request (lock :: rest) start end_) : Reached request rest start end_ :=
  ⟨h.start_le, h.le_end, h.end_le, fun l hl => h.own l (mem_cons_of_mem _ hl)⟩

section

variable {rest : List Lock} {start end_ : Nat} {a : Applied}

private theorem Reached.le (h : Reached request rest start end_) : start ≤ end_ :=
  Nat.le_trans h.start_le (Nat.le_trans request.start_le h.le_end)

section

variable (hvalid : Valid (lock :: rest))
include hvalid

private theorem Reached.merge (h : Reached request (lock :: rest) start end_)
    (hmerge : request.Merges start end_ lock) :
    Reached request rest (min lock.start start) (max lock.end_ end_) where
  start_le := Nat.le_trans (Nat.min_le_right _ _) h.start_le
  le_end := Nat.le_trans h.le_end (Nat.le_max_right _ _)
  end_le := Nat.max_le.mpr ⟨(hvalid.each lock mem_cons_self).end_le, h.end_le⟩
  own l hl howner byte hin hlo hhi := by
    obtain hold | hlock :=
      touches_spec (hvalid.each lock mem_cons_self) h.le h.end_le hmerge.2.2.2 hlo hhi
    · exact h.own l (mem_cons_of_mem _ hl) howner byte hin hold.1 hold.2
    · exact absurd hin (hvalid.apart_of_mem hl (hmerge.1.trans howner.symm) byte hlock)

/-- A lock is merged and the loop goes on. -/
theorem Looped.merge (hreached : Reached request (lock :: rest) start end_)
    (hmerge : request.Merges start end_ lock)
    (h : Looped request rest (min lock.start start) (max lock.end_ end_) a) :
    Looped request (lock :: rest) start end_ a where
  valid := h.valid
  piece p hp := by
    obtain ⟨l, hl, hpiece⟩ := h.piece p hp
    exact ⟨l, mem_cons_of_mem _ hl, hpiece⟩
  start_le := Nat.le_trans h.start_le (Nat.min_le_right _ _)
  le_end := Nat.le_trans (Nat.le_max_right _ _) h.le_end
  end_le := h.end_le
  covered byte hlo hhi := by
    obtain hrange | ⟨l, hl, hrest⟩ := h.covered byte hlo hhi
    · obtain hold | hlock :=
        touches_spec (hvalid.each lock mem_cons_self) hreached.le hreached.end_le
        hmerge.2.2.2 hrange.1 hrange.2
      · exact .inl hold
      · exact .inr ⟨lock, mem_cons_self, hmerge.1, hmerge.2.2.1, hlock⟩
    · exact .inr ⟨l, mem_cons_of_mem _ hl, hrest⟩
  kept l hl byte hin := by
    obtain rfl | hl := mem_cons.mp hl
    · have h1 := h.start_le
      have h2 := h.le_end
      obtain ⟨hlo, hhi⟩ := hin
      exact .inr (.inr ⟨hmerge.2.1, hmerge.1, hmerge.2.2.1, by omega, by omega⟩)
    · exact h.kept l hl byte hin
  outside := h.outside

/-- What remains of a lock is kept and the loop goes on. -/
theorem Looped.keep (hreached : Reached request (lock :: rest) start end_)
    (h : Looped request rest start end_ a) :
    Looped request (lock :: rest) start end_ (a.keep (remains request lock)) := by
  obtain ⟨hparts, hsame, hbytes⟩ := remains_parts request (hvalid.each lock mem_cons_self)
  have hpart : ∀ p ∈ remains request lock, ∀ byte, p.In byte →
      lock.In byte ∧ ¬(lock.owner = request.owner ∧ request.In byte) :=
    fun p hp byte hin => (hbytes byte).mp ⟨p, hp, hin⟩
  refine ⟨⟨?_, ?_⟩, ?_, h.start_le, h.le_end, h.end_le, ?_, ?_, ?_⟩
  · exact forall_mem_append.mpr ⟨hparts.each, h.valid.each⟩
  · refine pairwise_append.mpr ⟨hparts.apart, h.valid.apart, ?_⟩
    intro p hp q hq howner byte hin hin'
    obtain ⟨l, hl, hlowner, _, hlin⟩ := h.piece q hq
    have howner' : lock.owner = l.owner := by rw [← (hsame p hp).1, howner, hlowner]
    exact hvalid.apart_of_mem hl howner' byte (hpart p hp byte hin).1 (hlin byte hin').1
  · intro p hp
    obtain hp | hp := mem_append.mp hp
    · exact ⟨lock, mem_cons_self, (hsame p hp).1, (hsame p hp).2, hpart p hp⟩
    · obtain ⟨l, hl, hpiece⟩ := h.piece p hp
      exact ⟨l, mem_cons_of_mem _ hl, hpiece⟩
  · intro byte hlo hhi
    obtain hrange | ⟨l, hl, hrest⟩ := h.covered byte hlo hhi
    · exact .inl hrange
    · exact .inr ⟨l, mem_cons_of_mem _ hl, hrest⟩
  · intro l hl byte hin
    obtain rfl | hl := mem_cons.mp hl
    · by_cases hreq : l.owner = request.owner ∧ request.In byte
      · exact .inl hreq
      · obtain ⟨p, hp, hpin⟩ := (hbytes byte).mpr ⟨hin, hreq⟩
        exact .inr (.inl ⟨p, mem_append_left _ hp, (hsame p hp).1, (hsame p hp).2, hpin⟩)
    · obtain hreq | ⟨p, hp, hpin⟩ | hrange := h.kept l hl byte hin
      · exact .inl hreq
      · exact .inr (.inl ⟨p, mem_append_right _ hp, hpin⟩)
      · exact .inr (.inr hrange)
  · intro p hp howner byte hin hrange
    obtain hp | hp := mem_append.mp hp
    · -- A part of the lock is neither in the old range nor in a lock merged later.
      obtain ⟨hlock, hreq⟩ := hpart p hp byte hin
      have howner' : lock.owner = request.owner := (hsame p hp).1.symm.trans howner
      obtain hold | ⟨l, hl, hlowner, _, hlin⟩ := h.covered byte hrange.1 hrange.2
      · exact hreq ⟨howner', hreached.own lock mem_cons_self howner' byte hlock hold.1 hold.2⟩
      · exact hvalid.apart_of_mem hl (howner'.trans hlowner.symm) byte hlock hlin
    · exact h.outside p hp howner byte hin hrange

/-- The request is inside at most one lock. -/
theorem not_inside_of_inside (hinside : request.Inside lock) :
    ∀ l ∈ rest, ¬request.Inside l := by
  intro l hl hl'
  have hle := request.start_le
  obtain ⟨howner, h1, h2⟩ := hinside
  obtain ⟨howner', h1', h2'⟩ := hl'
  exact hvalid.apart_of_mem hl (howner.trans howner'.symm) request.start ⟨by omega, by omega⟩
    ⟨by omega, by omega⟩

end

end

/-- The loop needs one spare record at most. -/
private theorem applyLoop_spec {rest : List Lock} : ∀ {start end_ : Nat} (spare : Nat), Valid rest →
    Reached request rest start end_ → (1 ≤ spare ∨ ∀ l ∈ rest, ¬request.Inside l) →
    ∃ a, applyLoop request rest start end_ spare = some a ∧ Looped request rest start end_ a ∧
      spare ≤ a.spare + 1 ∧ ((∀ l ∈ rest, ¬request.Inside l) → a.spare = spare) := by
  induction rest with
  | nil =>
    intro start end_ spare _ hreached _
    refine ⟨⟨[], start, end_, spare⟩, rfl, ?_, Nat.le_succ _, fun _ => rfl⟩
    exact ⟨⟨nofun, Pairwise.nil⟩, nofun, Nat.le_refl _, Nat.le_refl _, hreached.end_le,
      fun byte hlo hhi => .inl ⟨hlo, hhi⟩, nofun, nofun⟩
  | cons lock rest ih =>
    intro start end_ spare hvalid hreached hspare
    have hspare' : 1 ≤ spare ∨ ∀ l ∈ rest, ¬request.Inside l :=
      hspare.imp_right fun h l hl => h l (mem_cons_of_mem _ hl)
    rw [applyLoop_cons]
    -- The lock is merged, split in two, or trimmed.
    split_ifs with hmerge hinside
    · obtain ⟨a, ha, hlooped, hleft, hsame⟩ :=
        ih spare hvalid.tail (hreached.merge hvalid hmerge) hspare'
      exact ⟨a, ha, hlooped.merge hvalid hreached hmerge, hleft,
        fun h => hsame fun l hl => h l (mem_cons_of_mem _ hl)⟩
    · -- The one split: one record is taken, and no other lock needs one.
      have hnone := not_inside_of_inside hvalid hinside
      cases spare with
      | zero =>
        obtain h | h := hspare
        · exact absurd h (by decide)
        · exact absurd hinside (h lock mem_cons_self)
      | succ spare =>
        obtain ⟨a, ha, hlooped, _, hsame⟩ := ih spare hvalid.tail hreached.tail (.inr hnone)
        refine ⟨a.keep (remains request lock), ?_, hlooped.keep hvalid hreached, ?_, ?_⟩
        · show (applyLoop request rest start end_ spare).map _ = _
          rw [ha, Option.map_some]
        · show spare + 1 ≤ a.spare + 1
          exact Nat.le_of_eq (by rw [hsame hnone])
        · exact fun h => absurd hinside (h lock mem_cons_self)
    · obtain ⟨a, ha, hlooped, hleft, hsame⟩ := ih spare hvalid.tail hreached.tail hspare'
      exact ⟨a.keep (remains request lock), by rw [ha, Option.map_some],
        hlooped.keep hvalid hreached, hleft,
        fun h => hsame fun l hl => h l (mem_cons_of_mem _ hl)⟩

/-! ## A request -/

/-- The request is one of the owner and has the byte. -/
theorem covers_iff :
    request.covers (owner, byte) = true ↔ request.owner = owner ∧ request.In byte := by
  simp [Request.covers, Request.In]

/-- Two lists of locks give a byte the same type if each lock there has one of its type in the other
    list. -/
theorem held_congr {locks' : List Lock} (hvalid : Valid locks) (hvalid' : Valid locks')
    (hkept : ∀ l ∈ locks, l.owner = owner → l.In byte →
      ∃ p ∈ locks', p.owner = owner ∧ p.In byte ∧ p.type = l.type)
    (hnew : ∀ p ∈ locks', p.owner = owner → p.In byte → ∃ l ∈ locks, l.owner = owner ∧ l.In byte) :
    held locks' owner byte = held locks owner byte := by
  by_cases hex : ∃ l ∈ locks, l.owner = owner ∧ l.In byte
  · obtain ⟨l, hl, howner, hin⟩ := hex
    obtain ⟨p, hp, howner', hin', htype⟩ := hkept l hl howner hin
    rw [hvalid.held_eq hl howner hin, hvalid'.held_eq hp howner' hin', htype]
  · rw [held_eq_unlock fun l hl howner hin => hex ⟨l, hl, howner, hin⟩]
    exact held_eq_unlock fun p hp howner hin => hex (hnew p hp howner hin)

section

variable {a : Applied}

private theorem Looped.unlocked (h : Looped request locks request.start request.end_ a)
    (hvalid : Valid locks)
    (htype : request.type = .unlock) (owner byte : Nat) :
    held a.locks owner byte = if request.covers (owner, byte) then request.type
      else held locks owner byte := by
  by_cases hcovers : request.covers (owner, byte) = true
  · rw [if_pos hcovers, htype]
    obtain ⟨howner, hin⟩ := covers_iff.mp hcovers
    apply held_eq_unlock
    intro p hp hpowner hpin
    obtain ⟨l, _, hlowner, _, hlin⟩ := h.piece p hp
    exact (hlin byte hpin).2 ⟨hlowner.symm.trans (hpowner.trans howner.symm), hin⟩
  · rw [if_neg hcovers]
    apply held_congr hvalid h.valid
    · intro l hl howner hin
      obtain hreq | ⟨p, hp, hpowner, hptype, hpin⟩ | hrange := h.kept l hl byte hin
      · exact absurd (covers_iff.mpr ⟨hreq.1.symm.trans howner, hreq.2⟩) hcovers
      · exact ⟨p, hp, hpowner.trans howner, hpin, hptype⟩
      · exact absurd htype hrange.1
    · intro p hp howner hin
      obtain ⟨l, hl, hlowner, _, hlin⟩ := h.piece p hp
      exact ⟨l, hl, hlowner.symm.trans howner, (hlin byte hin).1⟩

/-- The lock that `apply` adds. -/
def Request.added (request : Request) (a : Applied) : Lock :=
  ⟨request.owner, request.pid, request.type, a.start, a.end_⟩

private theorem Looped.valid_added (h : Looped request locks request.start request.end_ a)
    (htype : request.type ≠ .unlock) : Valid (request.added a :: a.locks) where
  each l hl := by
    obtain rfl | hl := mem_cons.mp hl
    · exact ⟨Nat.le_trans h.start_le (Nat.le_trans request.start_le h.le_end), h.end_le, htype⟩
    · exact h.valid.each l hl
  apart := by
    apply Pairwise.cons _ h.valid.apart
    intro p hp howner byte hin hpin
    exact h.outside p hp howner.symm byte hpin hin

private theorem Looped.locked (h : Looped request locks request.start request.end_ a)
    (hvalid : Valid locks)
    (htype : request.type ≠ .unlock) (owner byte : Nat) :
    held (request.added a :: a.locks) owner byte =
      if request.covers (owner, byte) then request.type else held locks owner byte := by
  have hvalid' := h.valid_added htype
  split
  · next hcovers =>
    obtain ⟨howner, hlo, hhi⟩ := covers_iff.mp hcovers
    have h1 := h.start_le
    have h2 := h.le_end
    apply hvalid'.held_eq mem_cons_self howner
    exact ⟨by show a.start ≤ byte; omega, by show byte ≤ a.end_; omega⟩
  · next hcovers =>
    apply held_congr hvalid hvalid'
    · intro l hl howner hin
      obtain hreq | ⟨p, hp, hpowner, hptype, hpin⟩ | ⟨_, hlowner, hltype, hrange⟩ :=
        h.kept l hl byte hin
      · exact absurd (covers_iff.mpr ⟨hreq.1.symm.trans howner, hreq.2⟩) hcovers
      · exact ⟨p, mem_cons_of_mem _ hp, hpowner.trans howner, hpin, hptype⟩
      · exact ⟨request.added a, mem_cons_self, hlowner.symm.trans howner, hrange, hltype.symm⟩
    · intro p hp howner hin
      obtain rfl | hp := mem_cons.mp hp
      · -- A byte of the new lock outside the request comes from a lock that was merged.
        obtain hreq | ⟨l, hl, hlowner, _, hlin⟩ := h.covered byte hin.1 hin.2
        · exact absurd (covers_iff.mpr ⟨howner, hreq⟩) hcovers
        · exact ⟨l, hl, hlowner.trans howner, hlin⟩
      · obtain ⟨l, hl, hlowner, _, hlin⟩ := h.piece p hp
        exact ⟨l, hl, hlowner.symm.trans howner, (hlin byte hin).1⟩

end

/-- A request writes its type over its range, and the two records are enough. -/
theorem apply_spec (hvalid : Valid locks) (request : Request) :
    ∃ locks', apply request locks = some locks' ∧ Valid locks' ∧ ∀ owner byte,
      held locks' owner byte =
        if request.covers (owner, byte) then request.type else held locks owner byte := by
  have hreached : Reached request locks request.start request.end_ :=
    ⟨Nat.le_refl _, Nat.le_refl _, request.end_le, fun _ _ _ _ _ hlo hhi => ⟨hlo, hhi⟩⟩
  obtain ⟨a, ha, hlooped, hspare, _⟩ := applyLoop_spec 2 hvalid hreached (.inl (by decide))
  unfold apply
  rw [ha, Option.bind_some]
  by_cases htype : request.type = .unlock
  · exact ⟨a.locks, if_pos htype, hlooped.valid, hlooped.unlocked hvalid htype⟩
  -- The loop has used at most one of the records.
  obtain ⟨n, hn⟩ : ∃ n, a.spare = n + 1 := ⟨a.spare - 1, by omega⟩
  refine ⟨request.added a :: a.locks, ?_, hlooped.valid_added htype, hlooped.locked hvalid htype⟩
  rw [if_neg htype, hn]
  rfl

/-! ## Conflicts -/

/-- No byte has a lock for writing of one owner and a lock of another. -/
def Exclusive (locks : List Lock) : Prop :=
  ∀ owner other byte, owner ≠ other → held locks owner byte = .write →
    held locks other byte = .unlock

/-- Without a conflict another owner has no lock on the bytes of the request, or both are for
    reading. -/
theorem not_conflict (h : findConflict locks request = none)
    (howner : owner ≠ request.owner) (hin : request.In byte) :
    held locks owner byte = .unlock ∨ held locks owner byte ≠ .write ∧ request.type ≠ .write := by
  by_cases hheld : held locks owner byte = .unlock
  · exact .inl hheld
  obtain ⟨l, hl, hlowner, hlin, hltype⟩ := exists_of_held hheld
  have hnot := find?_eq_none.mp h l hl
  have hover : overlaps request.start request.end_ l = true := by
    obtain ⟨h1, h2⟩ := hin
    obtain ⟨h3, h4⟩ := hlin
    simp only [overlaps, decide_eq_true_eq]
    omega
  have hne : l.owner ≠ request.owner := hlowner ▸ howner
  simp only [hover, decide_eq_true_eq, not_and, not_or] at hnot
  rw [← hltype]
  exact .inr (hnot hne trivial)

private theorem Exclusive.apply {locks' : List Lock} (h : Exclusive locks)
    (hconflict : request.type = .unlock ∨ findConflict locks request = none)
    (hheld : ∀ owner byte, held locks' owner byte =
      if request.covers (owner, byte) then request.type else held locks owner byte) :
    Exclusive locks' := by
  intro owner other byte hne hwrite
  rw [hheld] at hwrite ⊢
  -- The writer and the other owner may each be the one of the request.
  split_ifs at hwrite ⊢ with hother hcovers hcovers
  · exact absurd ((covers_iff.mp hcovers).1.symm.trans (covers_iff.mp hother).1) hne
  · obtain ⟨howner, hin⟩ := covers_iff.mp hother
    obtain hunlock | hnone := hconflict
    · exact hunlock
    obtain hfree | hread := not_conflict hnone (fun h => hne (h.trans howner)) hin
    · rw [hwrite] at hfree
      exact absurd hfree (by decide)
    · exact absurd hwrite hread.1
  · -- The request is for writing: another owner would have been in conflict.
    obtain ⟨howner, hin⟩ := covers_iff.mp hcovers
    obtain hunlock | hnone := hconflict
    · rw [hunlock] at hwrite
      exact absurd hwrite (by decide)
    · obtain hfree | hread := not_conflict hnone (fun h => hne (howner.symm.trans h.symm)) hin
      · exact hfree
      · exact absurd hwrite hread.2
  · exact h owner other byte hne hwrite

/-! ## Runs -/

/-- What an owner has on a byte by the requests that succeeded. -/
def State.requested (s : State) (owner byte : Nat) : LockType :=
  lastWrite Request.covers (fun request _ => request.type)
    (fun _ => .unlock) s.granted (owner, byte)

structure State.Valid (s : State) : Prop where
  locks : PosixLock.Valid s.locks
  held_eq : ∀ owner byte, held s.locks owner byte = s.requested owner byte
  exclusive : Exclusive s.locks

/-- A request that succeeds on a state keeps it valid. -/
theorem State.Valid.grant (h : s.Valid)
    (hvalid : PosixLock.Valid locks)
    (hconflict : request.type = .unlock ∨ findConflict s.locks request = none)
    (hheld : ∀ owner byte, held locks owner byte =
      if request.covers (owner, byte) then request.type else held s.locks owner byte)
    (waiters : List Waiter) : State.Valid ⟨locks, waiters, s.granted ++ [request]⟩ where
  locks := hvalid
  held_eq owner byte := by
    unfold State.requested
    rw [hheld, lastWrite_concat, h.held_eq]
    rfl
  exclusive := h.exclusive.apply hconflict hheld

/-- The request that a section under the mutex is about; a sleeping call left it in the list of
    waiters. -/
def State.requestOf (s : State) : Event → Option Request
  | .set _ request .. => some request
  | .resume call .. => (s.waiters.find? fun w => w.call = call).map (·.request)
  | .release owner pid => some (unlockAll owner pid)

/-- What a section under the mutex does: it grants its request, or it leaves the locks. -/
structure Performed (s : State) (request : Option Request) (result : Option (State × Outcome)) :
    Prop where
  valid : ∃ t outcome, result = some (t, outcome) ∧ t.Valid
  granted : ∀ t, result = some (t, .granted) → ∃ r ∈ request, t.granted = s.granted ++ [r]
  failed : ∀ t outcome, result = some (t, outcome) → outcome ≠ .granted → t.locks = s.locks ∧
    t.granted = s.granted

section Performed

variable {asked : Option Request}

private theorem performed_unchanged (h : s.Valid) (waiters : List Waiter) {outcome : Outcome}
    (houtcome : outcome ≠ .granted) :
    Performed s asked (some ({ s with waiters := waiters }, outcome)) where
  valid := ⟨_, _, rfl, h.locks, h.held_eq, h.exclusive⟩
  granted t heq := absurd (Prod.mk.inj (Option.some.inj heq)).2 houtcome
  failed t outcome' heq _ := by
    obtain ⟨rfl, _⟩ := Prod.mk.inj (Option.some.inj heq)
    exact ⟨rfl, rfl⟩

private theorem performed_granted {t : State} (h : t.Valid) (hrequest : request ∈ asked)
    (hgranted : t.granted = s.granted ++ [request]) : Performed s asked (some (t, .granted)) where
  valid := ⟨_, _, rfl, h⟩
  granted t' heq := by
    obtain ⟨rfl, _⟩ := Prod.mk.inj (Option.some.inj heq)
    exact ⟨request, hrequest, hgranted⟩
  failed t' outcome heq hne := by
    obtain ⟨_, rfl⟩ := Prod.mk.inj (Option.some.inj heq)
    exact absurd rfl hne

end Performed

private theorem attempt_performed (h : s.Valid) (call : Nat) (request : Request)
    (wait prepared : Bool) :
    Performed s (some request) (attempt s call request wait prepared) := by
  unfold attempt
  cases hblock : (if request.type = .unlock then none else findConflict s.locks request) with
  | none =>
    have hconflict : request.type = .unlock ∨ findConflict s.locks request = none := by
      by_cases htype : request.type = .unlock
      · exact .inl htype
      · exact .inr (by rwa [if_neg htype] at hblock)
    obtain ⟨locks, happly, hvalid, hheld⟩ := apply_spec h.locks request
    show Performed s _ (Option.map _ (apply request s.locks))
    rw [happly, Option.map_some]
    exact performed_granted (h.grant hvalid hconflict hheld s.waiters) rfl rfl
  | some blocker =>
    dsimp only
    split_ifs <;> exact performed_unchanged h _ nofun

private theorem Valid.filter (h : Valid locks) (p : Lock → Bool) : Valid (locks.filter p) where
  each l hl := h.each l (mem_filter.mp hl).1
  apart := h.apart.filter p

/-- `posix_lock_release_owner` is a request to unlock everything. -/
theorem held_release (hvalid : Valid locks) (owner : Nat) (pid : Int) (other byte : Nat) :
    held (locks.filter fun lock => lock.owner ≠ owner) other byte =
      if (unlockAll owner pid).covers (other, byte) then .unlock else held locks other byte := by
  have hvalid' := hvalid.filter fun lock => lock.owner ≠ owner
  by_cases howner : owner = other
  · have hnone : held (locks.filter fun lock => lock.owner ≠ owner) other byte = .unlock := by
      apply held_eq_unlock
      intro l hl hlowner
      have hne := of_decide_eq_true (mem_filter.mp hl).2
      exact absurd (hlowner.trans howner.symm) hne
    rw [hnone]
    by_cases hcovers : (unlockAll owner pid).covers (other, byte) = true
    · rw [if_pos hcovers]
    -- There is no byte after the last one.
    rw [if_neg hcovers]
    symm
    apply held_eq_unlock
    intro l hl _ hin
    have hend := (hvalid.each l hl).end_le
    exact hcovers (covers_iff.mpr ⟨howner, Nat.zero_le _, Nat.le_trans hin.2 hend⟩)
  · have hcovers : ¬(unlockAll owner pid).covers (other, byte) = true :=
      fun h => howner (covers_iff.mp h).1
    rw [if_neg hcovers]
    apply held_congr hvalid hvalid'
    · intro l hl hlowner hin
      have hne : l.owner ≠ owner := fun h => howner (h.symm.trans hlowner)
      exact ⟨l, mem_filter.mpr ⟨hl, decide_eq_true hne⟩, hlowner, hin, rfl⟩
    · intro p hp howner' hin
      exact ⟨p, (mem_filter.mp hp).1, howner', hin⟩

private theorem perform_performed (h : s.Valid) (event : Event) :
    Performed s (s.requestOf event) (perform s event) := by
  cases event with
  | set call request wait kmalloc prepared =>
    simp only [perform]
    split_ifs
    · exact performed_unchanged h s.waiters (by simp)
    · exact attempt_performed h call request wait prepared
    · exact performed_unchanged h s.waiters (by simp)
  | resume call interrupted prepared =>
    simp only [perform, State.requestOf]
    cases s.waiters.find? fun w => w.call = call with
    | none => exact performed_unchanged h s.waiters (by simp)
    | some waiter =>
      -- The waiter's record leaves the list before anything else is done.
      have h' : State.Valid { s with waiters := forgetWaiter s.waiters call } :=
        ⟨h.locks, h.held_eq, h.exclusive⟩
      dsimp only
      split_ifs
      · exact performed_unchanged h _ (by simp)
      · have hattempt := attempt_performed h' call waiter.request true prepared
        exact ⟨hattempt.valid, hattempt.granted, hattempt.failed⟩
  | release owner pid =>
    exact performed_granted
      (h.grant (h.locks.filter _) (.inl rfl) (held_release h.locks owner pid) s.waiters) rfl rfl

private theorem State.initial_valid : State.initial.Valid :=
  ⟨⟨nofun, Pairwise.nil⟩, fun _ _ => rfl, fun _ _ _ _ _ => rfl⟩

private theorem step_valid (h : s.Valid) (event : Event) :
    ∃ t, step s event = some t ∧ t.Valid := by
  obtain ⟨t, outcome, hperform, hvalid⟩ := (perform_performed h event).valid
  refine ⟨t, ?_, hvalid⟩
  unfold step
  rw [hperform, Option.map_some]

/-- In every run the locks are the last successful requests of each owner for each byte, each lock
    agrees with what its owner holds, a lock for writing is alone, a request that is granted is the
    last one that succeeded, and a request that fails changes no lock. -/
theorem record_locks (events : List Event) : ∃ s, Steps.run step State.initial events = some s ∧
      (∀ owner byte, held s.locks owner byte = s.requested owner byte) ∧
      (∀ lock ∈ s.locks, ∀ byte, lock.holds lock.owner byte = true →
        lock.type = held s.locks lock.owner byte) ∧
      (∀ owner other byte, owner ≠ other → held s.locks owner byte = .write →
        held s.locks other byte = .unlock) ∧
      (∀ event t, perform s event = some (t, .granted) →
        ∃ request ∈ s.requestOf event, t.granted = s.granted ++ [request]) ∧
      ∀ event t outcome, perform s event = some (t, outcome) → outcome ≠ .granted →
        t.locks = s.locks ∧ t.granted = s.granted := by
  have hstep : ∀ s event, s.Valid → True → ∃ t, step s event = some t ∧ t.Valid :=
    fun s event h _ => step_valid h event
  obtain ⟨s, hrun, hvalid⟩ := Steps.run_exists hstep State.initial_valid
    (Steps.Always.of_forall (fun _ _ _ => trivial) State.initial)
  refine ⟨s, hrun, hvalid.held_eq, ?_, hvalid.exclusive,
    fun event => (perform_performed hvalid event).granted,
    fun event => (perform_performed hvalid event).failed⟩
  intro lock hmem byte hholds
  exact (hvalid.locks.held_eq hmem rfl (holds_iff.mp hholds).2).symm

/-- A lock for writing on the bytes 0 to 9, and its bytes 4 and 5 unlocked again. -/
def splitEvents : List Event :=
  [.set 1 ⟨.write, 0, 9, 2, 7, by decide, by decide⟩ false true true,
    .set 2 ⟨.unlock, 4, 5, 2, 7, by decide, by decide⟩ false true true]

/-- The lock is in two pieces then, and no other owner has one on their bytes. -/
theorem splitEvents_locks : ∃ s, Steps.run step State.initial splitEvents = some s ∧
    (held s.locks 2 3, held s.locks 2 4, held s.locks 2 6) = (.write, .unlock, .write) ∧
    held s.locks 4 6 = .unlock := by
  obtain ⟨s, hrun, _, _, hexclusive, _⟩ := record_locks splitEvents
  obtain rfl := Option.some.inj hrun
  exact ⟨_, hrun, by decide, hexclusive 2 4 6 (by decide) (by decide)⟩

end Tunix.PosixLock
