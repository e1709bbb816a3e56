import Mathlib.Algebra.Ring.Nat
import Mathlib.Data.List.GetD
import Tunix.Kernel.Zram

/-!
# The compressed disk is an array of bytes

`contents` is the array that the slots stand for. Each operation does to it what it should: a read
gives its bytes, a write puts new ones in place up to the page at which it stops, a discard clears
the pages that lie in its range. The counters are sums over the slots all the time. The codec is
only assumed to give back the pages that it packs.
-/

namespace Tunix.Zram

open List

variable {page : Nat} {s t : State} {x : Slot} {codec : Codec} {data : Page} {lba : Nat}

/-! ## Sums over the slots -/

def total (f : Slot → Nat) (slots : List Slot) : Nat := (slots.map f).sum

def Slot.stored : Slot → Nat
  | .empty => 0
  | _ => 1

def Slot.isSame : Slot → Nat
  | .same _ => 1
  | _ => 0

def Slot.isRaw : Slot → Nat
  | .raw _ => 1
  | _ => 0

private theorem total_set (f : Slot → Nat) :
    ∀ {slots : List Slot} {page : Nat} (_ : page < slots.length) (x : Slot),
    total f (slots.set page x) + f (slots.getD page .empty) = total f slots + f x
  | [], _, h, _ => absurd h (Nat.not_lt_zero _)
  | slot :: slots, 0, _, x => by
    simp only [total, set_cons_zero, map_cons, sum_cons, getD_cons_zero]
    omega
  | slot :: slots, page + 1, h, x => by
    have hlt : page < slots.length := by simpa using h
    have ih := total_set f hlt x
    simp only [total, set_cons_succ, map_cons, sum_cons, getD_cons_succ] at ih ⊢
    omega

private theorem set_out {slots : List Slot} (h : ¬page < slots.length) (x : Slot) :
    slots.set page x = slots := set_eq_of_length_le (by omega)

/-- Outside of the device every page is empty. -/
theorem slot_out (h : ¬page < s.slots.length) :
    s.slot page = .empty := getD_eq_default _ _ (by omega)

/-- The counters are the sums over the slots. -/
structure Counted (s : State) : Prop where
  storedPages : s.storedPages = total Slot.stored s.slots
  compressedBytes : s.compressedBytes = total Slot.size s.slots
  memoryUsed : s.memoryUsed = total Slot.charged s.slots
  samePages : s.samePages = total Slot.isSame s.slots
  hugePages : s.hugePages = total Slot.isRaw s.slots

/-- Clearing a slot empties it. -/
@[simp] theorem slotClear_slots (s : State) (page : Nat) :
    (slotClear s page).slots = s.slots.set page .empty := rfl

/-- Clearing a slot leaves the limit. -/
@[simp] theorem slotClear_memoryLimit (s : State) (page : Nat) :
    (slotClear s page).memoryLimit = s.memoryLimit := by
  unfold slotClear State.uncount
  cases s.slot page <;> rfl

private theorem slotClear_memoryUsed (s : State) (page : Nat) :
    (slotClear s page).memoryUsed = s.memoryUsed - (s.slot page).charged := by
  unfold slotClear State.uncount
  cases s.slot page <;> rfl

private theorem Counted.clear (h : Counted s) (page : Nat) : Counted (slotClear s page) := by
  by_cases hpage : page < s.slots.length
  · obtain ⟨h1, h2, h3, h4, h5⟩ := h
    have t1 := total_set Slot.stored hpage .empty
    have t2 := total_set Slot.size hpage .empty
    have t3 := total_set Slot.charged hpage .empty
    have t4 := total_set Slot.isSame hpage .empty
    have t5 := total_set Slot.isRaw hpage .empty
    -- What the old slot was counted for is taken off, and an empty slot is counted for nothing.
    have hslot : s.slots.getD page .empty = s.slot page := rfl
    rw [hslot] at t1 t2 t3 t4 t5
    cases hkind : s.slot page <;>
      simp only [hkind, Slot.stored, Slot.size, Slot.charged, Slot.isSame, Slot.isRaw]
        at t1 t2 t3 t4 t5 <;>
      constructor <;> simp only [slotClear, hkind, State.uncount] <;> omega
  · have hslots := set_out hpage .empty
    have hclear : slotClear s page = s := by
      unfold slotClear
      rw [slot_out hpage, hslots]
      rfl
    rwa [hclear]

/-! ## Contents -/

/-- The codec gives back the pages that it packs. -/
def Codec.Inverts (codec : Codec) : Prop :=
  ∀ page, codec.compress page ≠ [] → codec.decompress (codec.compress page) = some page

/-- The byte of the disk at an address. -/
def contents (codec : Codec) (s : State) (i : Nat) : UInt8 :=
  match (s.slot (i / pageSize)).load codec with
  | none => 0
  | some page => page.byte i

/-- The state of the device between operations. -/
structure Good (codec : Codec) (s : State) : Prop where
  counted : Counted s
  loads : ∀ page, ∃ data, (s.slot page).load codec = some data
  limit : s.memoryLimit ≠ 0 → s.memoryUsed ≤ s.memoryLimit

private theorem Page.byte_eq (page : Page) (i : Fin 4096) : page.byte i = page i := by
  unfold Page.byte
  congr 1
  exact Fin.ofNat_val_eq_self i

private theorem Page.byte_mod (page : Page) {i j : Nat} (h : i % 4096 = j % 4096) :
    page.byte i = page.byte j := by
  unfold Page.byte
  congr 1
  exact Fin.ext h

private theorem slot_set (hpage : page < s.slots.length)
    (ht : t.slots = s.slots.set page x) (other : Nat) :
    t.slot other = if other = page then x else s.slot other := by
  unfold State.slot
  rw [ht, getD_eq_getElem?_getD, getElem?_set]
  by_cases h : other = page
  · rw [if_pos h.symm, if_pos h, if_pos hpage]
    rfl
  · rw [if_neg fun heq => h heq.symm, if_neg h]
    exact (getD_eq_getElem?_getD ..).symm

/-- A slot that holds `data` takes the place of another. -/
theorem contents_set (hpage : page < s.slots.length) (ht : t.slots = s.slots.set page x)
    (hload : x.load codec = some data) (i : Nat) :
    contents codec t i = if i / pageSize = page then data.byte i else contents codec s i := by
  unfold contents
  rw [slot_set hpage ht]
  split_ifs
  · rw [hload]
  · rfl

private theorem loads_set (h : ∀ page, ∃ data, (s.slot page).load codec = some data)
    (hpage : page < s.slots.length) (ht : t.slots = s.slots.set page x)
    (hload : x.load codec = some data) (other : Nat) :
    ∃ data, (t.slot other).load codec = some data := by
  rw [slot_set hpage ht]
  split_ifs
  · exact ⟨data, hload⟩
  · exact h other

/-- A page that is filled with a word is that word all over. -/
theorem sameFilled_spec {pattern : Word} (h : sameFilled data = some pattern) (codec : Codec) :
    (Slot.same pattern).load codec = some data := by
  unfold sameFilled at h
  split_ifs at h with hall
  · obtain rfl := Option.some.inj h
    show some (fun i : Fin 4096 => data.byte (Fin.ofNat 8 i.val).val) = some data
    congr 1
    funext i
    have hval : (Fin.ofNat 8 i.val).val = i.val % 8 := rfl
    rw [hval, ← Page.byte_eq data i]
    by_cases hfirst : i.val / 8 = 0
    · have heq : i.val % 8 = i.val := by omega
      rw [heq]
    · -- Byte `k` of word `index` is byte `k` of the first word.
      have hindex : i.val / 8 ∈ range' 1 511 := mem_range'_1.mpr (by omega)
      have hk : i.val % 8 ∈ range 8 := mem_range.mpr (by omega)
      have hbyte := all_eq_true.mp (all_eq_true.mp hall _ hindex) _ hk
      have hsplit : 8 * (i.val / 8) + i.val % 8 = i.val := by omega
      rw [hsplit] at hbyte
      exact (of_decide_eq_true hbyte).symm

/-! ## Storing a page -/

/-- What a page that was stored changes. -/
structure Stored (codec : Codec) (s t : State) (page : Nat) (data : Page) : Prop where
  good : Good codec t
  length : t.slots.length = s.slots.length
  memoryLimit : t.memoryLimit = s.memoryLimit
  contents : ∀ i,
    Zram.contents codec t i = if i / pageSize = page then data.byte i else Zram.contents codec s i

/-- A slot whose contents are known is put in place of a cleared one, and counted. -/
theorem Good.put (h : Good codec s) (hpage : page < s.slots.length)
    (hload : x.load codec = some data) (hset : t.slots = (slotClear s page).slots.set page x)
    (hlimit : t.memoryLimit = (slotClear s page).memoryLimit)
    (hroom : s.memoryLimit ≠ 0 → s.memoryUsed - (s.slot page).charged + x.charged ≤ s.memoryLimit)
    (h1 : t.storedPages = (slotClear s page).storedPages + x.stored)
    (h2 : t.compressedBytes = (slotClear s page).compressedBytes + x.size)
    (h3 : t.memoryUsed = (slotClear s page).memoryUsed + x.charged)
    (h4 : t.samePages = (slotClear s page).samePages + x.isSame)
    (h5 : t.hugePages = (slotClear s page).hugePages + x.isRaw) : Stored codec s t page data := by
  have hslots : t.slots = s.slots.set page x := by rw [hset, slotClear_slots, set_set]
  rw [slotClear_memoryLimit] at hlimit
  refine ⟨⟨?_, loads_set h.loads hpage hslots hload, ?_⟩, by rw [hslots, length_set], hlimit,
    contents_set hpage hslots hload⟩
  · have hclear := h.counted.clear page
    have hpage' : page < (slotClear s page).slots.length := by simpa using hpage
    -- The slot that is replaced is empty now, so only the new one counts.
    have hempty : (slotClear s page).slots.getD page .empty = .empty := by
      rw [slotClear_slots, getD_eq_getElem?_getD, getElem?_set_self hpage]
      rfl
    have hsum : ∀ f : Slot → Nat, f .empty = 0 →
        total f t.slots = total f (slotClear s page).slots + f x := by
      intro f hf
      have ht := total_set f hpage' x
      rw [hempty, hf, add_zero] at ht
      rw [hset, ht]
    refine ⟨?_, ?_, ?_, ?_, ?_⟩
    · rw [h1, hclear.storedPages, hsum _ rfl]
    · rw [h2, hclear.compressedBytes, hsum _ rfl]
    · rw [h3, hclear.memoryUsed, hsum _ rfl]
    · rw [h4, hclear.samePages, hsum _ rfl]
    · rw [h5, hclear.hugePages, hsum _ rfl]
  · rw [hlimit, h3, slotClear_memoryUsed]
    exact hroom

/-- What a page is charged for, if it does not consist of one word. -/
def storedSize (codec : Codec) (data : Page) : Nat :=
  if (codec.compress data).length = 0 ∨ huge < (codec.compress data).length then pageSize
  else (codec.compress data).length

/-- A page cannot be stored: with it the limit would be exceeded, or there is no memory for it. -/
def State.Refuses (codec : Codec) (limit : Nat) (s : State) (page : Nat) (data : Page)
    (kmalloc : Bool) : Prop :=
  sameFilled data = none ∧ (kmalloc = false ∨
    limit ≠ 0 ∧ limit < s.memoryUsed - (s.slot page).charged + charge (storedSize codec data))

/-- A page is stored, or refused for want of memory and nothing changes. -/
private theorem slotStore_spec (hcodec : codec.Inverts) (h : Good codec s)
    (hpage : page < s.slots.length) (data : Page)
    (kmalloc : Bool) :
    (∃ t, slotStore codec s page data kmalloc = (t, none) ∧ Stored codec s t page data) ∨
      s.Refuses codec s.memoryLimit page data kmalloc ∧ ∃ error,
        slotStore codec s page data kmalloc = (s, some error) := by
  unfold slotStore
  -- A page of one word needs no memory at all.
  cases hsame : sameFilled data with
  | some pattern =>
    refine .inl ⟨_, rfl,
      h.put hpage (sameFilled_spec hsame codec) rfl rfl (fun hne => ?_) rfl rfl rfl rfl rfl⟩
    exact le_trans (Nat.sub_le _ _) (h.limit hne)
  | none =>
    dsimp only
    by_cases hspace : s.memoryLimit ≠ 0 ∧ s.memoryLimit < s.memoryUsed - (s.slot page).charged +
        charge (if (codec.compress data).length = 0 ∨
          huge < (codec.compress data).length then pageSize
          else (codec.compress data).length)
    · rw [if_pos hspace]
      exact .inr ⟨⟨hsame, .inr hspace⟩, _, rfl⟩
    rw [if_neg hspace]
    split
    next hmemory => exact .inr ⟨⟨hsame, .inl (by simpa using hmemory)⟩, _, rfl⟩
    left
    -- A page that does not compress well is kept as it is.
    by_cases hwhole : (codec.compress data).length = 0 ∨ huge < (codec.compress data).length
    · simp only [if_pos hwhole] at hspace ⊢
      refine ⟨_, rfl, h.put (x := .raw data) hpage rfl ?_ ?_ (fun hne => ?_) ?_ ?_ ?_ ?_ ?_⟩
      case refine_3 => exact Nat.le_of_not_lt fun hlt => hspace ⟨hne, hlt⟩
      all_goals split <;> rfl
    · simp only [if_neg hwhole] at hspace ⊢
      have hpacked : codec.compress data ≠ [] := fun hnil => hwhole (.inl (by rw [hnil]; rfl))
      refine ⟨_, rfl, h.put (x := .packed (codec.compress data)) hpage (hcodec data hpacked)
        ?_ ?_ (fun hne => ?_) ?_ ?_ ?_ ?_ ?_⟩
      case refine_3 => exact Nat.le_of_not_lt fun hlt => hspace ⟨hne, hlt⟩
      all_goals split <;> rfl

/-! ## Reading and writing sectors -/

private theorem contents_eq (hload : (s.slot page).load codec = some data) {i : Nat}
    (hi : i / pageSize = page) :
    contents codec s i = data.byte i := by
  unfold contents
  rw [hi, hload]

/-- A state with other statistics. -/
theorem Good.congr (h : Good codec s) (hslots : t.slots = s.slots)
    (h1 : t.storedPages = s.storedPages) (h2 : t.compressedBytes = s.compressedBytes)
    (h3 : t.memoryUsed = s.memoryUsed) (h4 : t.samePages = s.samePages)
    (h5 : t.hugePages = s.hugePages)
    (hlimit : t.memoryLimit = s.memoryLimit) : Good codec t where
  counted := by
    obtain ⟨c1, c2, c3, c4, c5⟩ := h.counted
    exact ⟨by rw [h1, c1, hslots], by rw [h2, c2, hslots], by rw [h3, c3,
      hslots], by rw [h4, c4, hslots],
      by rw [h5, c5, hslots]⟩
  loads page := by
    unfold State.slot
    rw [hslots]
    exact h.loads page
  limit := by
    rw [h3, hlimit]
    exact h.limit

private theorem takeOf_within (lba count : Nat) : lba % sectors + takeOf lba count ≤ sectors := by
  unfold takeOf sectors
  split <;> omega

/-- The bytes of a range of sectors that a page holds. -/
theorem readLoop_spec (h : Good codec s) (count : Nat) : ∀ lba, readLoop codec s lba count =
      (s, some ((range (count * sectorSize)).map fun i =>
        contents codec s (lba * sectorSize + i))) := by
  induction count using Nat.strongRecOn with
  | ind count ih =>
    intro lba
    rw [readLoop.eq_def]
    by_cases hzero : count = 0
    · rw [dif_pos hzero, hzero]
      rfl
    rw [dif_neg hzero]
    obtain ⟨data, hdata⟩ := h.loads (lba / sectors)
    have hpos := takeOf_pos lba hzero
    have hle := takeOf_le lba count
    have hwithin := takeOf_within lba count
    have hload : slotLoad codec s (lba / sectors) = some data := hdata
    simp only [hload]
    rw [ih (count - takeOf lba count) (by omega)]
    -- A byte of the first page is one of the disk.
    have hbyte : ∀ i < takeOf lba count * sectorSize,
        data.byte (lba % sectors * sectorSize + i) = contents codec s (lba * sectorSize + i) := by
      intro i hi
      unfold sectors sectorSize at *
      rw [contents_eq hdata (by unfold pageSize; omega)]
      apply Page.byte_mod
      omega
    have hout : (if lba % sectors = 0 ∧
        takeOf lba count = sectors then (range pageSize).map data.byte
        else (range (takeOf lba count * sectorSize)).map fun i =>
          data.byte (lba % sectors * sectorSize + i)) =
        (range (takeOf lba count * sectorSize)).map fun i =>
          contents codec s (lba * sectorSize + i) := by
      split_ifs with hfull
      · have hsize : pageSize = takeOf lba count * sectorSize := by rw [hfull.2]; rfl
        rw [hsize]
        apply map_congr_left
        intro i hi
        have heq := hbyte i (mem_range.mp hi)
        rwa [hfull.1, zero_mul, zero_add] at heq
      · apply map_congr_left
        intro i hi
        exact hbyte i (mem_range.mp hi)
    have hsum : count * sectorSize = takeOf lba count * sectorSize +
        (count - takeOf lba count) * sectorSize := by
      rw [← add_mul, Nat.add_sub_cancel' hle]
    have hrest : (range ((count - takeOf lba count) * sectorSize)).map
        (fun i => contents codec s ((lba + takeOf lba count) * sectorSize + i)) =
        (range ((count - takeOf lba count) * sectorSize)).map
          ((fun i => contents codec s (lba * sectorSize + i)) ∘
            (takeOf lba count * sectorSize + ·)) := by
      apply map_congr_left
      intro i _
      rw [Function.comp_apply, add_mul, add_assoc]
    rw [hout, hrest, Option.map_some, hsum, range_add, map_append, map_map]

/-- What a write of some sectors changes. -/
structure Wrote (codec : Codec) (s t : State) (lba done : Nat) (source : Nat → UInt8) : Prop where
  good : Good codec t
  length : t.slots.length = s.slots.length
  memoryLimit : t.memoryLimit = s.memoryLimit
  contents : ∀ i, Zram.contents codec t i =
    if lba * sectorSize ≤ i ∧ i < (lba + done) * sectorSize then source (i - lba * sectorSize)
    else Zram.contents codec s i

section WithinPage

variable {take : Nat} {source : Nat → UInt8} {scratch whole : Page}

/-- The bytes of a page that is the old one with some new sectors. -/
theorem byte_whole (hscratch : (s.slot (lba / sectors)).load codec = some scratch)
    (hwhole : ∀ i : Fin 4096, whole i =
      if lba % sectors * sectorSize ≤ i.val ∧
        i.val < lba % sectors * sectorSize + take * sectorSize then
        source (i.val - lba % sectors * sectorSize)
      else scratch i) {i : Nat} (hpage : i / pageSize = lba / sectors) :
    whole.byte i = if lba * sectorSize ≤ i ∧
      i < (lba + take) * sectorSize then source (i - lba * sectorSize)
      else contents codec s i := by
  have hbyte := hwhole (Fin.ofNat 4096 i)
  have hval : (Fin.ofNat 4096 i).val = i % 4096 := rfl
  rw [contents_eq hscratch hpage]
  rw [hval] at hbyte
  unfold sectors sectorSize at *
  unfold pageSize at hpage
  have hiff : (lba % 8 * 512 ≤ i % 4096 ∧ i % 4096 < lba % 8 * 512 + take * 512) ↔
      (lba * 512 ≤ i ∧ i < (lba + take) * 512) := by omega
  show whole (Fin.ofNat 4096 i) = _
  rw [hbyte]
  by_cases hin : lba * 512 ≤ i ∧ i < (lba + take) * 512
  · rw [if_pos hin, if_pos (hiff.mpr hin)]
    congr 1
    omega
  · rw [if_neg hin, if_neg fun h => hin (hiff.mp h)]
    rfl

/-- The part of a write that lies in one page. -/
theorem Stored.wrote (hwithin : lba % sectors + take ≤ sectors)
    (hbytes : ∀ {i : Nat}, i / pageSize = lba / sectors → whole.byte i =
      if lba * sectorSize ≤ i ∧ i < (lba + take) * sectorSize then source (i - lba * sectorSize)
      else Zram.contents codec s i)
    (h : Stored codec s t (lba / sectors) whole) : Wrote codec s t lba take source where
  good := h.good
  length := h.length
  memoryLimit := h.memoryLimit
  contents i := by
    rw [h.contents]
    split_ifs with hpage hin hin
    · rw [hbytes hpage, if_pos hin]
    · rw [hbytes hpage, if_neg hin]
    · unfold sectors sectorSize pageSize at *
      omega
    · rfl

end WithinPage

/-- The page that a write would have stored next, and why it was not. -/
structure Stopped (codec : Codec) (limit : Nat) (kmalloc : Nat → Bool) (t : State)
    (lba count page : Nat)
    (source : Nat → UInt8) (data : Page) : Prop where
  bytes : ∀ i, i / pageSize = page → data.byte i =
    if lba * sectorSize ≤ i ∧ i < (lba + count) * sectorSize then source (i - lba * sectorSize)
    else contents codec t i
  refuses : t.Refuses codec limit page data (kmalloc page)

/-- A write that stops behind its first page. -/
theorem Stopped.shift {kmalloc : Nat → Bool} {limit take count : Nat} {source : Nat → UInt8}
    (h : Stopped codec limit kmalloc t (lba + take) count page
      (fun i => source (i + take * sectorSize)) data)
    (hpage : lba + take ≤ page * sectors) :
    Stopped codec limit kmalloc t lba (take + count) page source data where
  bytes i hi := by
    rw [h.bytes i hi, ← add_assoc]
    unfold sectors sectorSize pageSize at *
    have hplace : i - (lba + take) * 512 + take * 512 = i - lba * 512 := by omega
    split_ifs
    case pos => rw [hplace]
    all_goals first | rfl | omega
  refuses := h.refuses

private theorem Wrote.trans {u : State} {take done : Nat} {source : Nat → UInt8}
    (h : Wrote codec s t lba take source)
    (h' : Wrote codec t u (lba + take) done fun i => source (i + take * sectorSize)) :
    Wrote codec s u lba (take + done) source where
  good := h'.good
  length := h'.length.trans h.length
  memoryLimit := h'.memoryLimit.trans h.memoryLimit
  contents i := by
    rw [h'.contents, h.contents]
    -- The two ranges in bytes.
    have hmid : (lba + take) * sectorSize = lba * sectorSize + take * sectorSize := add_mul ..
    have hend : (lba + take + done) * sectorSize = (lba + take) * sectorSize +
        done * sectorSize := add_mul ..
    rw [← add_assoc]
    split_ifs
    case pos => exact congrArg source (by omega)
    all_goals first | rfl | omega

private theorem Wrote.nothing (h : Good codec t) (hslots : t.slots = s.slots)
    (hlimit : t.memoryLimit = s.memoryLimit) (lba : Nat) (source : Nat → UInt8) :
    Wrote codec s t lba 0 source where
  good := h
  length := by rw [hslots]
  memoryLimit := hlimit
  contents i := by
    have hnone : ¬(lba * sectorSize ≤ i ∧ i < (lba + 0) * sectorSize) := by
      rw [add_zero]
      omega
    rw [if_neg hnone]
    unfold Zram.contents State.slot
    rw [hslots]

/-- The page to be stored is the old one with the new bytes, which may be all of it. -/
private theorem exists_merged (count : Nat) (source : Nat → UInt8) {scratch : Page}
    (hload : slotLoad codec s (lba / sectors) = some scratch) :
    ∃ whole : Page, (if lba % sectors ≠ 0 ∨ takeOf lba count ≠ sectors then
        (slotLoad codec s (lba / sectors)).map fun scratch =>
          scratch.copy (lba % sectors * sectorSize) (takeOf lba count * sectorSize) source
      else some fun i : Fin 4096 => source i.val) = some whole ∧
      ∀ i : Fin 4096, whole i = if lba % sectors * sectorSize ≤ i.val ∧
          i.val < lba % sectors * sectorSize + takeOf lba count * sectorSize then
          source (i.val - lba % sectors * sectorSize)
        else scratch i := by
  split_ifs with hpart
  · rw [hload, Option.map_some]
    exact ⟨_, rfl, fun _ => rfl⟩
  · refine ⟨_, rfl, fun i => ?_⟩
    have hi := i.isLt
    have hfull : lba % sectors = 0 ∧ takeOf lba count = sectors := by omega
    rw [hfull.1, hfull.2, zero_mul, if_pos]
    · rfl
    · unfold sectors sectorSize
      omega

/-- A write goes through, or stops at a page that it leaves as it was. -/
theorem writeLoop_spec (hcodec : codec.Inverts) (kmalloc : Nat → Bool) (count : Nat) :
    ∀ {s : State} (lba : Nat) (source : Nat → UInt8), Good codec s →
      lba + count ≤ s.slots.length * sectors →
    ∃ t ok done, writeLoop codec kmalloc s lba count source = (t, ok) ∧
      (if ok then done = count else done < count ∧ (done = 0 ∨ (lba + done) % sectors = 0) ∧
        ∃ data, Stopped codec s.memoryLimit kmalloc t lba count
          ((lba + done) / sectors) source data) ∧
      Wrote codec s t lba done source := by
  induction count using Nat.strongRecOn with
  | ind count ih =>
    intro s lba source h hrange
    rw [writeLoop.eq_def]
    by_cases hzero : count = 0
    · rw [dif_pos hzero]
      exact ⟨s, true, 0, rfl, hzero.symm, Wrote.nothing h rfl rfl lba source⟩
    rw [dif_neg hzero]
    obtain ⟨scratch, hscratch⟩ := h.loads (lba / sectors)
    have hpos := takeOf_pos lba hzero
    have hle := takeOf_le lba count
    have hwithin := takeOf_within lba count
    have hpage : lba / sectors < s.slots.length := by
      unfold sectors at *
      omega
    obtain ⟨whole, hwhole, hbytes⟩ := exists_merged count source hscratch
    simp only [hwhole]
    have hpart := fun {i} => byte_whole (i := i) hscratch hbytes
    obtain ⟨t, ht, hstored⟩ | ⟨hrefuses, error, herror⟩ :=
      slotStore_spec hcodec h hpage whole (kmalloc (lba / sectors))
    · simp only [ht]
      have hwrote := hstored.wrote hwithin hpart
      obtain ⟨u, ok, done, hu, hdone, hwrote'⟩ := ih (count - takeOf lba count) (by omega)
        (lba + takeOf lba count) (fun i => source (i + takeOf lba count * sectorSize)) hwrote.good
          (by rw [hwrote.length]; omega)
      refine ⟨u, ok, takeOf lba count + done, hu, ?_, hwrote.trans hwrote'⟩
      cases ok with
      | true =>
        have hdone : done = count - takeOf lba count := hdone
        show takeOf lba count + done = count
        omega
      | false =>
        obtain ⟨hlt, hend, data, hstopped⟩ : done < count - takeOf lba count ∧
          (done = 0 ∨ (lba + takeOf lba count + done) % sectors = 0) ∧ ∃ data,
            Stopped codec t.memoryLimit kmalloc u
            (lba + takeOf lba count) (count - takeOf lba count)
              ((lba + takeOf lba count + done) / sectors) _ data :=
          hdone
        -- The first page was completed and there is more, so the range goes beyond it.
        have hborder : (lba + takeOf lba count) % sectors = 0 := by
          have htake : takeOf lba count = sectors - lba % sectors := by
            unfold takeOf at hlt ⊢
            split_ifs at hlt ⊢ <;> omega
          rw [htake]
          unfold sectors
          omega
        have hshift := hstopped.shift (by unfold sectors at *; omega)
        rw [Nat.add_sub_cancel' hle, add_assoc, hwrote.memoryLimit] at hshift
        refine ⟨by omega, .inr ?_, data, hshift⟩
        obtain rfl | hend := hend
        · exact hborder
        · rwa [← add_assoc]
    · simp only [herror]
      have hgood : Good codec { s with failedWrites := s.failedWrites + 1 } :=
        h.congr rfl rfl rfl rfl rfl rfl rfl
      refine ⟨_, false, 0, rfl, ⟨by omega, .inl rfl, whole, fun i hi => ?_, hrefuses⟩,
        Wrote.nothing (s := s) hgood rfl rfl lba source⟩
      have hin : i < (lba + takeOf lba count) * sectorSize ↔ i < (lba + count) * sectorSize := by
        unfold takeOf sectors sectorSize pageSize at *
        split_ifs <;> omega
      simp only [hpart hi, hin]
      rfl

/-! ## Discarding and resetting -/

/-- What clearing some pages changes. -/
structure Cleared (codec : Codec) (s t : State) (pages : List Nat) : Prop where
  good : Good codec t
  length : t.slots.length = s.slots.length
  memoryLimit : t.memoryLimit = s.memoryLimit
  slot : ∀ page, t.slot page = if page ∈ pages then .empty else s.slot page

private theorem slot_clear (s : State) (page other : Nat) :
    (slotClear s page).slot other = if other = page then .empty else s.slot other := by
  by_cases hpage : page < s.slots.length
  · exact slot_set hpage (slotClear_slots s page) other
  have hsame : (slotClear s page).slot other = s.slot other := by
    unfold State.slot
    rw [slotClear_slots, set_out hpage]
  rw [hsame]
  split_ifs with hother
  · rw [hother, slot_out hpage]
  · rfl

private theorem slotClear_good (h : Good codec s) (page : Nat) : Good codec (slotClear s page) where
  counted := h.counted.clear page
  loads other := by
    rw [slot_clear]
    split_ifs
    · exact ⟨_, rfl⟩
    · exact h.loads other
  limit hne := by
    rw [slotClear_memoryLimit] at hne ⊢
    rw [slotClear_memoryUsed]
    have hlimit := h.limit hne
    omega

private theorem slotClear_cleared (h : Good codec s) (page : Nat) :
    Cleared codec s (slotClear s page) [page] where
  good := slotClear_good h page
  length := by rw [slotClear_slots, length_set]
  memoryLimit := slotClear_memoryLimit s page
  slot other := by simp only [slot_clear, mem_singleton]

private theorem discardPage_cleared (h : Good codec s) (page : Nat) :
    Cleared codec s (discardPage s page) [page] := by
  have hnoticed : Good codec { s with freedNotices := s.freedNotices + 1 } :=
    h.congr rfl rfl rfl rfl rfl rfl rfl
  have hcleared := slotClear_cleared hnoticed page
  unfold discardPage
  cases s.slot page with
  | empty => exact slotClear_cleared h page
  | same | packed | raw =>
    exact ⟨hcleared.good, hcleared.length, hcleared.memoryLimit, hcleared.slot⟩

/-- Pages are cleared one after the other. -/
theorem foldl_cleared {clear : State → Nat → State}
    (hclear : ∀ {s : State}, Good codec s → ∀ page, Cleared codec s (clear s page) [page])
    (pages : List Nat) :
    ∀ {s : State}, Good codec s → Cleared codec s (pages.foldl clear s) pages := by
  induction pages with
  | nil =>
    intro s h
    exact ⟨h, rfl, rfl, fun page => by simp⟩
  | cons page pages ih =>
    intro s h
    have hfirst := hclear h page
    have hrest := ih hfirst.good
    refine ⟨hrest.good, hrest.length.trans hfirst.length,
      hrest.memoryLimit.trans hfirst.memoryLimit, ?_⟩
    intro other
    rw [foldl_cons, hrest.slot, hfirst.slot]
    by_cases hmem : other ∈ pages
    · rw [if_pos hmem, if_pos (mem_cons_of_mem _ hmem)]
    · rw [if_neg hmem]
      simp only [mem_cons, hmem, or_false, not_mem_nil]

private theorem Cleared.contents {pages : List Nat} (h : Cleared codec s t pages) (i : Nat) :
    contents codec t i = if i / pageSize ∈ pages then 0 else contents codec s i := by
  unfold Zram.contents
  rw [h.slot]
  split_ifs <;> rfl

private theorem total_eq_zero {f : Slot → Nat} (hf : f .empty = 0) {slots : List Slot}
    (h : ∀ x ∈ slots, x = .empty) :
    total f slots = 0 := by
  induction slots with
  | nil => rfl
  | cons slot slots ih =>
    have hrest := ih fun x hx => h x (mem_cons_of_mem _ hx)
    rw [h slot mem_cons_self]
    simp only [total, map_cons, sum_cons] at hrest ⊢
    rw [hf, hrest]

/-- A table of empty slots in place of another one. -/
theorem Counted.replace (h : Counted s) (hs : ∀ x ∈ s.slots, x = .empty)
    (ht : ∀ x ∈ t.slots, x = .empty)
    (h1 : t.storedPages = s.storedPages) (h2 : t.compressedBytes = s.compressedBytes)
    (h3 : t.memoryUsed = s.memoryUsed) (h4 : t.samePages = s.samePages)
    (h5 : t.hugePages = s.hugePages) :
    Counted t := by
  obtain ⟨c1, c2, c3, c4, c5⟩ := h
  refine ⟨?_, ?_, ?_, ?_, ?_⟩
  · rw [h1, c1, total_eq_zero rfl hs, total_eq_zero rfl ht]
  · rw [h2, c2, total_eq_zero rfl hs, total_eq_zero rfl ht]
  · rw [h3, c3, total_eq_zero rfl hs, total_eq_zero rfl ht]
  · rw [h4, c4, total_eq_zero rfl hs, total_eq_zero rfl ht]
  · rw [h5, c5, total_eq_zero rfl hs, total_eq_zero rfl ht]

private theorem slot_mem (h : x ∈ s.slots) : ∃ page < s.slots.length, s.slot page = x := by
  obtain ⟨page, hpage, hx⟩ := mem_iff_getElem.mp h
  refine ⟨page, hpage, ?_⟩
  rw [← hx]
  exact getD_eq_getElem _ _ hpage

private theorem releaseAll_good (h : Good codec s) :
    Good codec (releaseAll s) ∧ (releaseAll s).memoryLimit = s.memoryLimit ∧
      (releaseAll s).slots = [] := by
  have hcleared := foldl_cleared (fun h page => slotClear_cleared h page) (range s.slots.length) h
  have hempty : ∀ x ∈ ((range s.slots.length).foldl slotClear s).slots, x = .empty := by
    intro x hx
    obtain ⟨page, hpage, rfl⟩ := slot_mem hx
    rw [hcleared.slot, if_pos]
    rw [hcleared.length] at hpage
    exact mem_range.mpr hpage
  refine ⟨⟨?_, ?_, ?_⟩, hcleared.memoryLimit, rfl⟩
  · exact hcleared.good.counted.replace hempty nofun rfl rfl rfl rfl rfl
  · exact fun _ => ⟨_, rfl⟩
  · exact hcleared.good.limit

private theorem setDisksize_good (h : Good codec s) (pages : Nat) :
    Good codec (setDisksize s pages) ∧ (setDisksize s pages).memoryLimit = s.memoryLimit ∧
      ∀ i, contents codec (setDisksize s pages) i = contents codec s i := by
  unfold setDisksize
  split
  · next hnone =>
    have hempty : ∀ page, State.slot { s with slots := replicate pages .empty } page = .empty := by
      intro page
      show (replicate pages Slot.empty).getD page .empty = .empty
      rw [getD_eq_getElem?_getD, getElem?_replicate]
      split <;> rfl
    have hslot : ∀ page, s.slot page = .empty := by
      intro page
      exact slot_out (by rw [hnone]; exact Nat.not_lt_zero _)
    refine ⟨⟨?_, ?_, h.limit⟩, rfl, ?_⟩
    · refine h.counted.replace (by rw [hnone]; exact nofun) ?_ rfl rfl rfl rfl rfl
      intro x hx
      exact (mem_replicate.mp hx).2
    · intro page
      rw [hempty]
      exact ⟨_, rfl⟩
    · intro i
      unfold contents
      rw [hempty, hslot]
  · exact ⟨h, rfl, fun _ => rfl⟩

/-! ## Runs -/

private theorem zramWrite_spec (hcodec : codec.Inverts) (h : Good codec s) {count : Nat}
    (hvalid : rangeValid s lba count = true) (source : Nat → UInt8) (kmalloc : Nat → Bool) :
    ∃ t ok done, zramWrite codec kmalloc s lba count source = (t, ok) ∧
      (if ok then done = count else done < count ∧ (done = 0 ∨ (lba + done) % sectors = 0) ∧
        ∃ data, Stopped codec s.memoryLimit kmalloc t lba count
          ((lba + done) / sectors) source data) ∧
      Wrote codec s t lba done source := by
  have hrange :
      count ≠ 0 ∧ lba < s.slots.length * sectors ∧ count ≤ s.slots.length * sectors - lba :=
    of_decide_eq_true hvalid
  unfold zramWrite
  rw [if_neg (not_not.mpr hvalid)]
  exact writeLoop_spec hcodec kmalloc count lba source h (by omega)

private theorem zramDiscard_cleared (h : Good codec s) {count : Nat}
    (hvalid : rangeValid s lba count = true) :
    Cleared codec s (zramDiscard s lba count).1 (range' ((lba + sectors - 1) / sectors)
      ((lba + count) / sectors - (lba + sectors - 1) / sectors)) := by
  unfold zramDiscard
  rw [if_neg (not_not.mpr hvalid)]
  exact foldl_cleared (fun h page => discardPage_cleared h page) _ h

private theorem initial_good (codec : Codec) (limit : Nat) : Good codec (State.initial limit) where
  counted := ⟨rfl, rfl, rfl, rfl, rfl⟩
  loads _ := ⟨_, rfl⟩
  limit _ := Nat.zero_le _

private theorem step_good (hcodec : codec.Inverts) (h : Good codec s) (event : Event) :
    Good codec (step codec s event) ∧ (step codec s event).memoryLimit = s.memoryLimit := by
  cases event with
  | disksize pages =>
    obtain ⟨hgood, hlimit, _⟩ := setDisksize_good h pages
    exact ⟨hgood, hlimit⟩
  | read lba count =>
    unfold step zramRead
    -- A range outside of the device is only counted.
    by_cases hvalid : ¬rangeValid s lba count = true
    · simp only [if_pos hvalid]
      exact ⟨h.congr rfl rfl rfl rfl rfl rfl rfl, trivial⟩
    · simp only [if_neg hvalid, readLoop_spec h]
      exact ⟨h, trivial⟩
  | write lba count source kmalloc =>
    by_cases hvalid : rangeValid s lba count = true
    · obtain ⟨t, ok, done, ht, _, hwrote⟩ := zramWrite_spec hcodec h hvalid source kmalloc
      rw [step, ht]
      exact ⟨hwrote.good, hwrote.memoryLimit⟩
    · rw [step, zramWrite, if_pos hvalid]
      exact ⟨h.congr rfl rfl rfl rfl rfl rfl rfl, rfl⟩
  | discard lba count =>
    by_cases hvalid : rangeValid s lba count = true
    · have hcleared := zramDiscard_cleared h hvalid
      exact ⟨hcleared.good, hcleared.memoryLimit⟩
    · rw [step, zramDiscard, if_pos hvalid]
      exact ⟨h, rfl⟩
  | reset =>
    obtain ⟨hgood, hlimit, _⟩ := releaseAll_good h
    exact ⟨hgood, hlimit⟩

private theorem run_good (hcodec : codec.Inverts) (events : List Event) :
    ∀ {s : State}, Good codec s →
    Good codec (run codec s events) ∧ (run codec s events).memoryLimit = s.memoryLimit := by
  induction events with
  | nil => exact fun h => ⟨h, rfl⟩
  | cons event events ih =>
    intro s h
    obtain ⟨hgood, hlimit⟩ := step_good hcodec h event
    obtain ⟨hgood', hlimit'⟩ := ih hgood
    exact ⟨hgood', hlimit'.trans hlimit⟩

/-- A page lies in a range of sectors. -/
def PageWithin (page lba count : Nat) : Prop :=
  lba ≤ page * sectors ∧ (page + 1) * sectors ≤ lba + count

instance (page lba count : Nat) : Decidable (PageWithin page lba count) :=
  inferInstanceAs (Decidable (_ ∧ _))

private theorem mem_discard {count : Nat} :
    page ∈ range' ((lba + sectors - 1) / sectors)
      ((lba + count) / sectors - (lba + sectors - 1) / sectors) ↔
      PageWithin page lba count := by
  unfold PageWithin sectors
  rw [mem_range'_1]
  omega

/-- After every run: the counters are sums over the slots, and the limit is kept; a read gives the
    bytes of the array; a write puts its bytes there, or stops at a page that does not fit into the
    limit or gets no memory, and leaves it and the following ones; a discard clears the pages in its
    range, a reset all of them; and nothing else changes the array, which is zero at first. -/
theorem zram_refines (codec : Codec) (hcodec : codec.Inverts) (limit : Nat) (events : List Event) :
    let s := run codec (State.initial limit) events
    Counted s ∧ (limit ≠ 0 → s.memoryUsed ≤ limit) ∧
    (∀ i, contents codec (State.initial limit) i = 0) ∧
    (∀ lba count, rangeValid s lba count = true → zramRead codec s lba count =
      (s, some ((List.range (count * sectorSize)).map fun i =>
        contents codec s (lba * sectorSize + i)))) ∧
    (∀ lba count source kmalloc, rangeValid s lba count = true → ∃ t ok done,
      zramWrite codec kmalloc s lba count source = (t, ok) ∧
      (if ok then done = count else done < count ∧ (done = 0 ∨ (lba + done) % sectors = 0) ∧
        ∃ data, Stopped codec limit kmalloc t lba count ((lba + done) / sectors) source data) ∧
      t.slots.length = s.slots.length ∧ ∀ i, contents codec t i =
        if lba * sectorSize ≤ i ∧ i < (lba + done) * sectorSize then source (i - lba * sectorSize)
        else contents codec s i) ∧
    (∀ lba count, rangeValid s lba count = true → ∀ i,
      contents codec (zramDiscard s lba count).1 i =
      if PageWithin (i / pageSize) lba count then 0 else contents codec s i) ∧
    (∀ i, contents codec (releaseAll s) i = 0) ∧
    ∀ pages i, contents codec (setDisksize s pages) i = contents codec s i := by
  intro s
  -- Every run keeps the counters and the limit; the calls are then taken one by one.
  obtain ⟨hgood, hlimit⟩ : Good codec s ∧ s.memoryLimit = limit :=
    run_good hcodec events (initial_good codec limit)
  refine ⟨hgood.counted, ?_, fun i => rfl, ?_, ?_, ?_, ?_, ?_⟩
  · intro hne
    have hkept := hgood.limit
    rw [hlimit] at hkept
    exact hkept hne
  · intro lba count hvalid
    unfold zramRead
    rw [if_neg (not_not.mpr hvalid)]
    exact readLoop_spec hgood count lba
  · intro lba count source kmalloc hvalid
    obtain ⟨t, ok, done, ht, hdone, hwrote⟩ := zramWrite_spec hcodec hgood hvalid source kmalloc
    rw [hlimit] at hdone
    exact ⟨t, ok, done, ht, hdone, hwrote.length, hwrote.contents⟩
  · intro lba count hvalid i
    simp only [(zramDiscard_cleared hgood hvalid).contents, mem_discard]
  · intro i
    have hslots := (releaseAll_good hgood).2.2
    unfold contents
    rw [slot_out (by rw [hslots]; exact Nat.not_lt_zero _)]
    rfl
  · exact fun pages => (setDisksize_good hgood pages).2.2

/-- A codec that packs the page whose bytes count upwards, and no other. -/
def rampCodec : Codec where
  compress page := if (range pageSize).all fun i => page.byte i = UInt8.ofNat i then [1] else []
  decompress blob := if blob = [1] then some fun i => UInt8.ofNat i.val else none

private theorem rampCodec_inverts : rampCodec.Inverts := by
  intro page hpacked
  by_cases hramp : ((range pageSize).all fun i => page.byte i = UInt8.ofNat i) = true
  · simp only [rampCodec, if_pos hramp, if_true, Option.some.injEq]
    funext i
    have hbyte := all_eq_true.mp hramp i.val (mem_range.mpr i.isLt)
    rw [← Page.byte_eq page i]
    exact (of_decide_eq_true hbyte).symm
  · simp only [rampCodec, if_neg hramp] at hpacked
    exact absurd rfl hpacked

/-- Of two pages, sectors on both sides of the border are written, and read back. -/
theorem zram_refines_ramp : rampCodec.Inverts ∧ ∃ t,
    zramWrite rampCodec (fun _ => true) (run rampCodec (State.initial 0) [.disksize 2]) 4 8
      UInt8.ofNat = (t, true) ∧
    (zramRead rampCodec t 4 8).2 = some ((List.range 4096).map UInt8.ofNat) := by
  have hrefines := zram_refines rampCodec rampCodec_inverts 0
  obtain ⟨t, ok, done, hwrite, hdone, hlength, hcontents⟩ :=
    (hrefines [.disksize 2]).2.2.2.2.1 4 8 UInt8.ofNat (fun _ => true) (by decide)
  cases ok with
  | false =>
    -- there is memory for every page, and no limit
    obtain ⟨-, -, data, hstopped⟩ := hdone
    obtain hmemory | ⟨hlimit, -⟩ := hstopped.refuses.2
    · cases hmemory
    · exact absurd rfl hlimit
  | true =>
    obtain rfl : done = 8 := hdone
    have hrun : run rampCodec (State.initial 0)
        [.disksize 2, .write 4 8 UInt8.ofNat fun _ => true] = t :=
      congrArg Prod.fst hwrite
    have hread := (hrefines [.disksize 2, .write 4 8 UInt8.ofNat fun _ => true]).2.2.2.1 4 8
    rw [hrun] at hread
    refine ⟨rampCodec_inverts, t, hwrite, ?_⟩
    rw [hread (by rw [rangeValid, hlength]; decide)]
    refine congrArg some (List.map_congr_left fun i hi => ?_)
    have hi : i < 4096 := List.mem_range.mp hi
    rw [hcontents, if_pos (by unfold sectorSize; omega), Nat.add_sub_cancel_left]

end Tunix.Zram
