import Tunix.Spec.RingLayout

/-!
# The completion queue in the memory of a ring

User space that only advances the completion head, up to the tail, is `Polite`. Under it the
completion queue holds the entries that were written and not yet consumed: `Holding` says this of
the memory with the numbers of entries that were consumed, published and written so far. Loads and
the stores to other fields keep it, and `storeCqe_queue` says what the three stores of an entry do.
-/

namespace Tunix.IoUring

open Bytes Returns UInt32

variable {shape : Shape} {world : World} {p : Pointer} {c : Context}

/-! ## Memory without pages -/

/-- The pages one after the other. -/
def flat (memory : Pages) : Buffer := fun i => memory (i / 4096) (i % 4096)

/-- Where a pointer is in it. -/
def Pointer.address (p : Pointer) : Nat := p.page.toNat * 4096 + p.offset.toNat

private theorem address_atOffset (offset : UInt64) : (atOffset offset).address = offset.toNat := by
  have hring : ringPage.toNat = 4096 := rfl
  show (offset / ringPage).toNat * 4096 + (offset % ringPage).toNat = _
  rw [UInt64.toNat_div, UInt64.toNat_mod, hring]
  omega

private theorem loadLe32_flat {memory : Pages} (h : p.offset.toNat + 4 ≤ 4096) :
    loadLe32 (memory p.page.toNat) p.offset.toNat = loadLe32 (flat memory) p.address := by
  have hbyte :
      ∀ k, k < 4 → memory p.page.toNat (p.offset.toNat + k) = flat memory (p.address + k) := by
    intro k hk
    have hdiv : (p.address + k) / 4096 = p.page.toNat := by unfold Pointer.address; omega
    have hmod : (p.address + k) % 4096 = p.offset.toNat + k := by unfold Pointer.address; omega
    show _ = memory ((p.address + k) / 4096) ((p.address + k) % 4096)
    rw [hdiv, hmod]
  have hfirst := hbyte 0 (by decide)
  rw [add_zero, add_zero] at hfirst
  unfold loadLe32
  rw [hfirst, hbyte 1 (by decide), hbyte 2 (by decide), hbyte 3 (by decide)]

/-- A change of bytes of one page is one of the same bytes in the whole. -/
theorem flat_setPage {size : Nat} (h : p.offset.toNat + size ≤ 4096) {f g : Buffer → Buffer}
    (houtside : ∀ b i, i < p.offset.toNat ∨ p.offset.toNat + size ≤ i → f b i = b i)
    (houtside' : ∀ b i, i < p.address ∨ p.address + size ≤ i → g b i = b i)
    (hinside : ∀ b b' k, k < size → f b (p.offset.toNat + k) = g b' (p.address + k)) :
    flat (c.setPage p.page.toNat f).memory = g (flat c.memory) := by
  funext i
  show (if i / 4096 = p.page.toNat then f (c.memory (i / 4096)) else c.memory (i / 4096))
    (i % 4096) = _
  by_cases hin : p.address ≤ i ∧ i < p.address + size
  · unfold Pointer.address at hin
    have hpage : i / 4096 = p.page.toNat := by omega
    have hoffset : i % 4096 = p.offset.toNat + (i - p.address) := by unfold Pointer.address; omega
    rw [if_pos hpage, hoffset,
      hinside _ (flat c.memory) (i - p.address) (by unfold Pointer.address; omega)]
    congr 1
    unfold Pointer.address
    omega
  · rw [houtside' _ i (by omega)]
    show _ = c.memory (i / 4096) (i % 4096)
    by_cases hpage : i / 4096 = p.page.toNat
    · rw [if_pos hpage, houtside _ _ (by unfold Pointer.address at hin; omega)]
    · rw [if_neg hpage]

private theorem flat_store32 (h : p.offset.toNat + 4 ≤ 4096) (v : UInt32) :
    flat (c.setPage p.page.toNat fun b => storeLe32 b p.offset.toNat v).memory =
      storeLe32 (flat c.memory) p.address v := by
  apply flat_setPage h (g := fun b => storeLe32 b p.address v)
  · exact fun b i hi => storeLe32_apply _ _ _ _ hi
  · exact fun b i hi => storeLe32_apply _ _ _ _ hi
  · intro b b' k hk
    unfold storeLe32
    interval_cases k <;> simp

private theorem flat_store64 (h : p.offset.toNat + 8 ≤ 4096) (v : UInt64) :
    flat (c.setPage p.page.toNat fun b => storeLe64 b p.offset.toNat v).memory =
      storeLe64 (flat c.memory) p.address v := by
  apply flat_setPage h (g := fun b => storeLe64 b p.address v)
  · exact fun b i hi => storeLe64_apply _ _ _ _ hi
  · exact fun b i hi => storeLe64_apply _ _ _ _ hi
  · intro b b' k hk
    unfold storeLe64 storeLe32
    simp only [add_assoc, Nat.add_eq_left, Nat.add_left_cancel_iff]
    interval_cases k <;> simp

/-! ## Accesses -/

/-- Only the memory and the clock changed. -/
def Untouched (c t : Context) : Prop := t = { c with memory := t.memory, clock := t.clock }

private theorem Untouched.rfl : Untouched c c := Eq.refl c

/-- One access behind another. -/
theorem Untouched.trans {t u : Context} (h : Untouched c t) (h' : Untouched t u) :
    Untouched c u := by
  unfold Untouched at *
  rw [h', h]

/-- The two rings have the same operations. -/
structure SameOps (c t : Context) : Prop where
  ops : t.ops = c.ops
  queue : t.queue = c.queue
  nextAddress : t.nextAddress = c.nextAddress
  linkLast : t.linkLast = c.linkLast

/-- The operations are the same. -/
theorem Untouched.sameOps {t : Context} (h : Untouched c t) : SameOps c t := by
  constructor <;> rw [h]

/-- Their number is the same. -/
theorem Untouched.opCount {t : Context} (h : Untouched c t) : t.opCount = c.opCount := by
  rw [h]

/-- What user space leaves as it is, whatever else it stores. -/
def Stable (world : World) (good : Pages → Prop) : Prop :=
  ∀ time memory, good memory → good (world.user time memory)

/-- The computation stays in the ring and leaves a memory that is good so; it changes nothing
    else. -/
def Keeps {α : Type} (good : Pages → Prop) (m : RingM α) : Prop :=
  ∀ c : Context, good c.memory → Returns m c fun _ t => good t.memory ∧ Untouched c t

namespace Keeps

variable {α β : Type} {good : Pages → Prop} {m : RingM α} {f : α → RingM β}

/-- A result without an access. -/
theorem pure (a : α) :
    Keeps good (Pure.pure a : RingM α) := fun _ hc => (pure_iff a).mpr ⟨hc, Untouched.rfl⟩

/-- What follows a computation that keeps the memory good. -/
theorem then_of {c : Context} {post : β → Context → Prop} (hm : Keeps good m) (hc : good c.memory)
    (hf : ∀ a t, good t.memory → Untouched c t → Returns (f a) t post) :
    Returns (m >>= f) c post := by
  rw [bind_iff]
  exact (hm c hc).mono fun a t ht => hf a t ht.1 ht.2

/-- One computation behind another. -/
theorem bind (hm : Keeps good m) (hf : ∀ a, Keeps good (f a)) : Keeps good (m >>= f) := by
  intro c hc
  apply hm.then_of hc
  intro a t ht hct
  exact (hf a t ht).mono fun b u hu => ⟨hu.1, hct.trans hu.2⟩

end Keeps

section

variable {good : Pages → Prop} {size : Nat}

/-- Time goes on. -/
theorem keeps_tick : Keeps good tick := by
  intro c hc
  simp only [tick, bind_iff, get_iff, modify_iff, pure_iff]
  exact ⟨hc, rfl⟩

/-- An access of the kernel sees a memory that is good, if user space keeps it so. -/
theorem Stable.access (hstable : Stable world good) (hholds : shape.Holds p size) :
    Keeps good (access shape world p size) := by
  intro c hc
  exact of_check hholds ⟨hstable _ _ hc, rfl⟩

private theorem keeps_get {α : Type} (f : Context → α) :
    Keeps good (do let c ← get; pure (f c) : RingM α) := by
  intro c hc
  simp only [bind_iff, get_iff, pure_iff]
  exact ⟨hc, Untouched.rfl⟩

section

variable (hstable : Stable world good)

include hstable

private theorem Stable.load32 (hholds : shape.Holds p 4) :
    Keeps good (load32 shape world p) := (hstable.access hholds).bind fun _ => keeps_get _

/-- Bytes inside the ring are copied. -/
theorem Stable.copyBytes (hholds : shape.Holds p size) :
    ∀ n, n ≤ size → Keeps good (copyBytes shape world p n) := by
  intro n
  induction n with
  | zero => exact fun _ => Keeps.pure _
  | succ n ih =>
    intro hn
    apply (ih (by omega)).bind
    intro copied
    exact ((hstable.access (hholds.part n hn)).bind fun _ => keeps_get _).bind
      fun byte => Keeps.pure _

/-- What a load returns is in a memory that is good. -/
theorem load32_good (hholds : shape.Holds p 4) (hgood : good c.memory) :
    Returns (load32 shape world p) c fun v t =>
      good t.memory ∧ Untouched c t ∧ v = loadLe32 (flat t.memory) p.address := by
  apply (hstable.access hholds).then_of hgood
  intro _ t ht hct
  rw [bind_iff, get_iff, pure_iff]
  exact ⟨ht, hct, loadLe32_flat hholds.2⟩

/-- A store changes the bytes behind the pointer in a memory that is good. -/
theorem store32_good (hholds : shape.Holds p 4) (v : UInt32) (hgood : good c.memory) :
    Returns (store32 shape world p v) c fun _ t => Untouched c t ∧
      ∃ memory, good memory ∧ flat t.memory = storeLe32 (flat memory) p.address v := by
  apply (hstable.access hholds).then_of hgood
  intro _ t ht hct
  rw [modify_iff]
  exact ⟨hct.trans rfl, t.memory, ht, flat_store32 hholds.2 v⟩

private theorem store64_good (hholds : shape.Holds p 8) (v : UInt64) (hgood : good c.memory) :
    Returns (store64 shape world p v) c fun _ t => Untouched c t ∧
      ∃ memory, good memory ∧ flat t.memory = storeLe64 (flat memory) p.address v := by
  apply (hstable.access hholds).then_of hgood
  intro _ t ht hct
  rw [modify_iff]
  exact ⟨hct.trans rfl, t.memory, ht, flat_store64 hholds.2 v⟩

end

end

/-! ## Fields -/

private theorem address_field (offset : UInt32) : (field offset).address = offset.toNat := by
  unfold field
  rw [address_atOffset, toNat_toUInt64]

/-- The fields other than the completion head and tail may hold anything. -/
structure Tolerates (shape : Shape) (world : World) (good : Pages → Prop) : Prop where
  stable : Stable world good
  field : ∀ {memory memory' : Pages} {offset : Nat} {v : UInt32}, good memory →
    offset + 4 ≤ 64 ∨ 72 ≤ offset ∧ offset + 4 ≤ 128 →
      flat memory' = storeLe32 (flat memory) offset v → good memory'

/-- Nothing is asked of the memory. -/
theorem stable_true : Stable world fun _ => True := fun _ _ _ => trivial

/-- What says nothing is kept. -/
theorem tolerates_true : Tolerates shape world fun _ => True := ⟨stable_true, fun _ _ _ => trivial⟩

namespace Tolerates

variable {good : Pages → Prop} {offset : UInt32} (h : Tolerates shape world good) (hs : shape.Sized)

include h hs

/-- A field of the header is read. -/
theorem loadField (hoffset : 4 ∣ offset.toNat) (hlt : offset.toNat < 128) :
    Keeps good (load32 shape world (IoUring.field offset)) :=
      h.stable.load32 (hs.holds_field hoffset hlt)

/-- A field of the header is stored, other than head and tail of the completions. -/
theorem storeField (hdvd : 4 ∣ offset.toNat)
    (hoffset : offset.toNat + 4 ≤ 64 ∨ 72 ≤ offset.toNat ∧ offset.toNat + 4 ≤ 128) (v : UInt32) :
    Keeps good (store32 shape world (IoUring.field offset) v) := by
  intro c hc
  apply (store32_good h.stable (hs.holds_field hdvd (by omega)) v hc).mono
  intro _ t ⟨hct, memory, hmemory, hstore⟩
  rw [address_field] at hstore
  exact ⟨h.field hmemory hoffset hstore, hct⟩

/-- The index of a submission is read. -/
theorem submissionIndex (head : UInt32) : Keeps good (submissionIndex shape world head) := by
  unfold IoUring.submissionIndex
  split
  · exact Keeps.pure _
  · next hflag => exact h.stable.load32 (hs.holds_index (not_not.mp hflag) head)

/-- The header is filled in. -/
theorem fillFields : Keeps good (fillFields shape world) := by
  apply (h.storeField hs (by decide) (by decide) _).bind
  intro _
  apply (h.storeField hs (by decide) (by decide) _).bind
  intro _
  apply (h.storeField hs (by decide) (by decide) _).bind
  intro _
  exact h.storeField hs (by decide) (by decide) _

/-- `io_uring_completions_ready` only reads. -/
theorem completionsReady : Keeps good (ioUringCompletionsReady shape world) := by
  apply (h.loadField hs (by decide) (by decide)).bind
  intro _
  exact (h.loadField hs (by decide) (by decide)).bind fun _ => Keeps.pure _

/-- `io_uring_poll` only reads. -/
theorem poll (requested : UInt32) : Keeps good (ioUringPoll shape world requested) := by
  apply (h.loadField hs (by decide) (by decide)).bind
  intro _
  apply (h.completionsReady hs).bind
  intro _
  apply (h.loadField hs (by decide) (by decide)).bind
  intro _
  exact (h.loadField hs (by decide) (by decide)).bind fun _ => Keeps.pure _

end Tolerates

/-! ## The completion queue -/

/-- An entry of the completion queue, with the operation that it is of. -/
structure Completion where
  address : Nat
  userData : UInt64
  result : Int32
deriving DecidableEq

/-- The entry stands at an offset. -/
def EntryAt (b : Buffer) (offset : Nat) (e : Completion) : Prop :=
  loadLe64 b offset = e.userData ∧ loadLe32 b (offset + 8) = e.result.toUInt32 ∧
    loadLe32 b (offset + 12) = 0

/-- An entry depends on its 16 bytes only. -/
theorem EntryAt.congr {b b' : Buffer} {offset : Nat} {e : Completion} (h : EntryAt b offset e)
    (hsame : ∀ i, offset ≤ i → i < offset + 16 → b' i = b i) : EntryAt b' offset e := by
  refine ⟨?_, ?_, ?_⟩
  · rw [loadLe64_congr fun i h1 h2 => hsame i h1 (by omega)]
    exact h.1
  · rw [loadLe32_congr fun i h1 h2 => hsame i (by omega) (by omega)]
    exact h.2.1
  · rw [loadLe32_congr fun i h1 h2 => hsame i (by omega) (by omega)]
    exact h.2.2

/-- Of the entries of `log`, the first `consumed` have been consumed by user space and the first
    `published` have been shown to it; those that were not consumed stand in their slots. -/
structure Holding (shape : Shape) (b : Buffer) (consumed published : Nat) (log : List Completion) :
    Prop where
  consumed_le : consumed ≤ published
  published_le : published ≤ log.length
  room : log.length ≤ consumed + shape.cqEntries.toNat
  head : loadLe32 b 64 = ofNat consumed
  tail : loadLe32 b 68 = ofNat published
  entries : ∀ (k : Nat) (e : Completion), consumed ≤ k → log[k]? = some e →
    EntryAt b (128 + k % shape.cqEntries.toNat * 16) e

/-- The bytes of the completion tail and of the entries. -/
def Shape.IsKernel (shape : Shape) (i : Nat) : Prop :=
  68 ≤ i ∧ i < 72 ∨ 128 ≤ i ∧ i < 128 + shape.cqEntries.toNat * 16

/-- User space leaves the completion tail and the entries alone and advances the completion head up
    to the tail at most. What else it stores does not matter. -/
def Polite (shape : Shape) (world : World) : Prop := ∀ time memory,
  (∀ i, shape.IsKernel i → flat (world.user time memory) i = flat memory i) ∧
  loadLe32 (flat (world.user time memory)) 64 - loadLe32 (flat memory) 64 ≤
    loadLe32 (flat memory) 68 - loadLe32 (flat memory) 64

/-- The completion queue is in order, and at least `low` entries have been consumed. -/
def Queue (shape : Shape) (low published : Nat) (log : List Completion) (memory : Pages) : Prop :=
  ∃ consumed, low ≤ consumed ∧ Holding shape (flat memory) consumed published log

/-- The bytes that only the kernel writes are all that matters besides the head. -/
theorem Holding.congr {b b' : Buffer} {consumed published : Nat} {log : List Completion}
    (h : Holding shape b consumed published log) (hkernel : ∀ i, shape.IsKernel i → b' i = b i)
    (hhead : loadLe32 b' 64 = loadLe32 b 64) (hpos : 0 < shape.cqEntries.toNat) :
    Holding shape b' consumed published log where
  consumed_le := h.consumed_le
  published_le := h.published_le
  room := h.room
  head := hhead.trans h.head
  tail := by
    rw [loadLe32_congr fun i h1 h2 => hkernel i (.inl ⟨h1, h2⟩)]
    exact h.tail
  entries k e hk he := by
    have hslot := Nat.mod_lt k hpos
    apply (h.entries k e hk he).congr
    intro i h1 h2
    apply hkernel i
    unfold Shape.IsKernel
    omega

/-- The numbers of entries, as the fields of the ring have them. -/
theorem sub_ofNat {a b : Nat} (hle : a ≤ b) (hlt : b - a < 2 ^ 32) :
    (UInt32.ofNat b - UInt32.ofNat a).toNat = b - a := by
  rw [UInt32.toNat_sub, UInt32.toNat_ofNat', UInt32.toNat_ofNat']
  omega

private theorem eq_ofNat_add {head : UInt32} {a : Nat} :
    head = ofNat (a + (head - ofNat a).toNat) := by
  apply UInt32.toNat_inj.mp
  have hlt := head.toNat_lt
  rw [UInt32.toNat_ofNat', UInt32.toNat_sub, UInt32.toNat_ofNat']
  omega

/-- A polite user space keeps the completion queue in order. -/
theorem Polite.stable (hpolite : Polite shape world) (hs : shape.Sized) (low published : Nat)
    (log : List Completion) :
    Stable world (Queue shape low published log) := by
  intro time memory ⟨consumed, hlow, h⟩
  obtain ⟨hkernel, hhead⟩ := hpolite time memory
  have hroom := h.room
  have hle := h.consumed_le
  have hpub := h.published_le
  have hcq := hs.cqEntries_le
  have hadvance :
      (loadLe32 (flat (world.user time memory)) 64 - ofNat consumed).toNat ≤
        published - consumed := by
    rw [h.head, h.tail, le_iff_toNat_le, sub_ofNat hle (by omega)] at hhead
    exact hhead
  generalize hdelta :
    (loadLe32 (flat (world.user time memory)) 64 - ofNat consumed).toNat = delta at hadvance
  refine ⟨consumed + delta, by omega, ?_⟩
  constructor
  · omega
  · exact hpub
  · omega
  · rw [← hdelta]
    exact eq_ofNat_add
  · rw [loadLe32_congr fun i h1 h2 => hkernel i (.inl ⟨h1, h2⟩)]
    exact h.tail
  · intro k e hk he
    have hslot := Nat.mod_lt k hs.cqEntries_pos
    apply (h.entries k e (by omega) he).congr
    intro i h1 h2
    apply hkernel i
    unfold Shape.IsKernel
    omega

section

variable {low published : Nat} {log : List Completion}

/-- A polite user space may have anything in the other fields. -/
theorem Polite.tolerates (hpolite : Polite shape world) (hs : shape.Sized) :
    Tolerates shape world (Queue shape low published log) where
  stable := hpolite.stable hs low published log
  field := by
    intro memory memory' offset v ⟨consumed, hlow, h⟩ hoffset hstore
    refine ⟨consumed, hlow, h.congr ?_ ?_ hs.cqEntries_pos⟩
    · intro i hi
      unfold Shape.IsKernel at hi
      rw [hstore, storeLe32_apply _ _ _ _ (by omega)]
    · rw [hstore]
      apply loadLe32_congr
      intro i h1 h2
      exact storeLe32_apply _ _ _ _ (by omega)

/-- The store to the completion tail shows user space what was written. -/
theorem Queue.publish {memory memory' : Pages} (hs : shape.Sized)
    (h : Queue shape low published log memory)
    (hstore : flat memory' = storeLe32 (flat memory) 68 (ofNat log.length)) :
    Queue shape low log.length log memory' := by
  obtain ⟨consumed, hlow, h⟩ := h
  refine ⟨consumed, hlow, le_trans h.consumed_le h.published_le, le_refl _, h.room, ?_, ?_, ?_⟩
  · rw [hstore, loadLe32_congr fun i h1 h2 => storeLe32_apply _ _ _ _ (by omega)]
    exact h.head
  · rw [hstore, loadLe32_storeLe32]
  · intro k e hk he
    have hslot := Nat.mod_lt k hs.cqEntries_pos
    apply (h.entries k e hk he).congr
    intro i h1 h2
    rw [hstore, storeLe32_apply _ _ _ _ (by omega)]

/-- At least as many entries have been consumed as a smaller number. -/
theorem Queue.mono {memory : Pages} {low' : Nat} (h : Queue shape low' published log memory)
    (hle : low ≤ low') :
    Queue shape low published log memory := by
  obtain ⟨consumed, hlow, h⟩ := h
  exact ⟨consumed, le_trans hle hlow, h⟩

variable (hpolite : Polite shape world) (hs : shape.Sized)

include hpolite hs

section

variable (h : Queue shape low published log c.memory)
include h

/-- Storing the tail publishes the completions. -/
theorem storeTail_queue :
    Returns (store32 shape world (field cqTail) (ofNat log.length)) c fun _ t =>
      Queue shape low log.length log t.memory ∧ Untouched c t := by
  apply (store32_good (hpolite.stable hs low published log)
    (hs.holds_field (by decide) (by decide)) _ h).mono
  intro _ t ⟨hct, memory, hmemory, hstore⟩
  exact ⟨hmemory.publish hs hstore, hct⟩

/-- The head that the kernel reads says how much was consumed by then. -/
theorem loadHead_queue :
    Returns (load32 shape world (field cqHead)) c fun v t => Untouched c t ∧
      ∃ consumed, v = ofNat consumed ∧ low ≤ consumed ∧ consumed ≤ log.length ∧
        log.length ≤ consumed + shape.cqEntries.toNat ∧
          Queue shape consumed published log t.memory := by
  apply (load32_good (hpolite.stable hs low published log)
    (hs.holds_field (by decide) (by decide)) h).mono
  intro v t ⟨⟨consumed, hlow, ht⟩, hct, hv⟩
  exact ⟨hct, consumed, hv.trans ht.head, hlow, le_trans ht.consumed_le ht.published_le, ht.room,
    consumed, le_refl _, ht⟩

/-- The tail is the one that was stored. -/
theorem loadTail_queue :
    Returns (load32 shape world (field cqTail)) c fun v t =>
      Queue shape low published log t.memory ∧ Untouched c t ∧ v = ofNat published := by
  apply (load32_good (hpolite.stable hs low published log)
    (hs.holds_field (by decide) (by decide)) h).mono
  intro v t ⟨⟨consumed, hlow, ht⟩, hct, hv⟩
  exact ⟨⟨consumed, hlow, ht⟩, hct, hv.trans ht.tail⟩

end

end

/-! ## The entries of the completion queue -/

/-- Where the entry with a number is. -/
def Shape.slot (shape : Shape) (k : Nat) : Nat := 128 + k % shape.cqEntries.toNat * 16

/-- Two entries of which less than a round lies between are in different slots. -/
theorem Shape.slot_ne {k n : Nat} (hlt : k < n) (hround : n < k + shape.cqEntries.toNat) :
    shape.slot k + 16 ≤ shape.slot n ∨ shape.slot n + 16 ≤ shape.slot k := by
  have hne : k % shape.cqEntries.toNat ≠ n % shape.cqEntries.toNat := by
    intro h
    have hdvd : shape.cqEntries.toNat ∣ n - k :=
      Nat.dvd_of_mod_eq_zero (Nat.sub_mod_eq_zero_of_mod_eq h.symm)
    have hle := Nat.le_of_dvd (by omega) hdvd
    omega
  unfold Shape.slot
  omega

/-- The number of entries is a power of two, so that the mask finds the slot. -/
theorem toNat_slot {j : Nat} (hj : j ≤ 16) (hpow : shape.cqEntries.toNat = 2 ^ j) (n : Nat) :
    (cqCqes.toUInt64 + (ofNat n &&& (shape.cqEntries - 1)).toUInt64 * 16).toNat = shape.slot n := by
  have hmask : (ofNat n &&& (shape.cqEntries - 1)).toNat = n % shape.cqEntries.toNat := by
    have hone : (1 : UInt32).toNat = 1 := rfl
    have hlt := shape.cqEntries.toNat_lt
    have hpos := Nat.two_pow_pos j
    have hpred : (shape.cqEntries - 1).toNat = 2 ^ j - 1 := by
      rw [UInt32.toNat_sub, hone]
      omega
    rw [UInt32.toNat_and, hpred, Nat.and_two_pow_sub_one_eq_mod, UInt32.toNat_ofNat', hpow]
    exact Nat.mod_mod_of_dvd n (Nat.pow_dvd_pow 2 (by omega))
  have hbase : cqCqes.toUInt64.toNat = 128 := rfl
  have hoffset := toNat_entry (ofNat n &&& (shape.cqEntries - 1)) (by decide : 16 ≤ 64)
    (by decide : cqCqes.toUInt64.toNat < 2 ^ 32)
  rw [hmask, hbase] at hoffset
  exact hoffset

section

variable {low published : Nat} {log : List Completion}

/-- The slot of the next entry is free: what is stored in it does not matter. -/
theorem Queue.of_slot {memory memory' : Pages} (h : Queue shape low published log memory)
    (hroom : log.length < low + shape.cqEntries.toNat)
    (hsame : ∀ i, i < shape.slot log.length ∨ shape.slot log.length + 16 ≤ i →
      flat memory' i = flat memory i) :
    Queue shape low published log memory' := by
  obtain ⟨consumed, hlow, h⟩ := h
  have hslot : 128 ≤ shape.slot log.length := Nat.le_add_right _ _
  refine ⟨consumed, hlow, h.consumed_le, h.published_le, h.room, ?_, ?_, ?_⟩
  · rw [loadLe32_congr fun i h1 h2 => hsame i (by omega)]
    exact h.head
  · rw [loadLe32_congr fun i h1 h2 => hsame i (by omega)]
    exact h.tail
  · intro k e hk he
    have hlt : k < log.length := (List.getElem?_eq_some_iff.mp he).1
    have hne := shape.slot_ne hlt (by omega)
    apply (h.entries k e hk he).congr
    intro i h1 h2
    apply hsame i
    unfold Shape.slot at *
    omega

private theorem Queue.append {memory : Pages} (h : Queue shape low published log memory)
    (hroom : log.length < low + shape.cqEntries.toNat) {e : Completion}
    (hentry : EntryAt (flat memory) (shape.slot log.length) e) :
    Queue shape low published (log ++ [e]) memory := by
  obtain ⟨consumed, hlow, h⟩ := h
  have hlen : (log ++ [e]).length = log.length + 1 := by simp
  refine ⟨consumed, hlow, h.consumed_le, ?_, ?_, h.head, h.tail, ?_⟩
  · have := h.published_le
    omega
  · omega
  · intro k e' hk he'
    by_cases hlt : k < log.length
    · rw [List.getElem?_append_left hlt] at he'
      exact h.entries k e' hk he'
    · have hbound := (List.getElem?_eq_some_iff.mp he').1
      have heq : k = log.length := by omega
      subst heq
      rw [List.getElem?_concat_length] at he'
      cases he'
      exact hentry

/-- What depends on the bytes of the kernel is not changed by user space. -/
theorem Polite.stable_kernel (hpolite : Polite shape world) {good : Pages → Prop}
    (hgood : ∀ memory memory',
      (∀ i, shape.IsKernel i → flat memory' i = flat memory i) → good memory →
      good memory') : Stable world good :=
  fun time memory h => hgood memory _ (hpolite time memory).1 h

private theorem Stable.and {good good' : Pages → Prop} (h : Stable world good)
    (h' : Stable world good') :
    Stable world fun memory => good memory ∧ good' memory :=
  fun time memory hm => ⟨h time memory hm.1, h' time memory hm.2⟩

private theorem Shape.slot_kernel (hs : shape.Sized) (n : Nat) {i : Nat} (h1 : shape.slot n ≤ i)
    (h2 : i < shape.slot n + 16) : shape.IsKernel i := by
  have hlt := Nat.mod_lt n hs.cqEntries_pos
  unfold Shape.slot at *
  unfold Shape.IsKernel
  omega

/-- The three stores of an entry add it to those that were written. -/
theorem storeCqe_queue (hpolite : Polite shape world) (hs : shape.Sized) {j : Nat} (hj : j ≤ 16)
    (hpow : shape.cqEntries.toNat = 2 ^ j) (address : Nat) (op : Op)
    (h : Queue shape low published log c.memory)
    (hroom : log.length < low + shape.cqEntries.toNat) :
    Returns (storeCqe shape world (ofNat log.length) op) c fun _ t => Untouched c t ∧
      Queue shape low published (log ++ [⟨address, op.userData, op.result⟩]) t.memory := by
  have hcqe := hs.holds_cqe (ofNat log.length)
  have hslot := toNat_slot hj hpow log.length
  unfold storeCqe
  dsimp only
  generalize hp :
    atOffset (cqCqes.toUInt64 + (ofNat log.length &&& (shape.cqEntries - 1)).toUInt64 * 16) = p
    at hcqe ⊢
  have hring : ringPage.toNat = 4096 := rfl
  have hend := hcqe.2
  have haddress : p.address = shape.slot log.length := by rw [← hp, address_atOffset, hslot]
  have hpart :
      ∀ d, d < 16 →
        (Pointer.mk p.page (p.offset + UInt64.ofNat d)).address = shape.slot log.length + d := by
    intro d hd
    rw [← haddress]
    unfold Pointer.address
    dsimp only
    rw [UInt64.toNat_add, UInt64.toNat_ofNat']
    omega
  have hqueue := hpolite.stable hs low published log
  -- the user data, and then each of the other two words with what was stored before
  have hdata :
      Stable world fun memory => loadLe64 (flat memory) (shape.slot log.length) = op.userData := by
    refine hpolite.stable_kernel fun memory memory' hsame hm => ?_
    rw [loadLe64_congr fun i h1 h2 => hsame i (shape.slot_kernel hs log.length h1 (by omega))]
    exact hm
  have hresult : Stable world fun memory =>
      loadLe32 (flat memory) (shape.slot log.length + 8) = op.result.toUInt32 := by
    refine hpolite.stable_kernel fun memory memory' hsame hm => ?_
    rw [loadLe32_congr fun i h1 h2 =>
      hsame i (shape.slot_kernel hs log.length (by omega) (by omega))]
    exact hm
  rw [bind_iff]
  apply (store64_good hqueue ⟨hcqe.1, by omega⟩ op.userData h).mono
  intro _ t ⟨hct, memory, hmemory, hstore⟩
  rw [haddress] at hstore
  have ht : Queue shape low published log t.memory := by
    apply hmemory.of_slot hroom
    intro i hi
    rw [hstore, storeLe64_apply _ _ _ _ (by omega)]
  have htdata : loadLe64 (flat t.memory) (shape.slot log.length) = op.userData := by
    rw [hstore, loadLe64_storeLe64]
  rw [bind_iff]
  apply (store32_good (hqueue.and hdata) (hcqe.part 8 (by decide)) op.result.toUInt32
    ⟨ht, htdata⟩).mono
  intro _ u ⟨htu, memory', ⟨hmemory', hdata'⟩, hstore'⟩
  rw [hpart 8 (by decide)] at hstore'
  have hu : Queue shape low published log u.memory := by
    apply hmemory'.of_slot hroom
    intro i hi
    rw [hstore', storeLe32_apply _ _ _ _ (by omega)]
  have hudata : loadLe64 (flat u.memory) (shape.slot log.length) = op.userData := by
    rw [hstore', loadLe64_congr fun i h1 h2 => storeLe32_apply _ _ _ _ (by omega)]
    exact hdata'
  have huresult : loadLe32 (flat u.memory) (shape.slot log.length + 8) = op.result.toUInt32 := by
    rw [hstore', loadLe32_storeLe32]
  apply (store32_good ((hqueue.and hdata).and hresult) (hcqe.part 12 (by decide)) 0
    ⟨⟨hu, hudata⟩, huresult⟩).mono
  intro _ v ⟨huv, memory'', ⟨⟨hmemory'', hdata''⟩, hresult''⟩, hstore''⟩
  rw [hpart 12 (by decide)] at hstore''
  refine ⟨(hct.trans htu).trans huv, Queue.append ?_ hroom ⟨?_, ?_, ?_⟩⟩
  · apply hmemory''.of_slot hroom
    intro i hi
    rw [hstore'', storeLe32_apply _ _ _ _ (by omega)]
  · rw [hstore'', loadLe64_congr fun i h1 h2 => storeLe32_apply _ _ _ _ (by omega)]
    exact hdata''
  · rw [hstore'', loadLe32_congr fun i h1 h2 => storeLe32_apply _ _ _ _ (by omega)]
    exact hresult''
  · rw [hstore'', loadLe32_storeLe32]

end

end Tunix.IoUring
