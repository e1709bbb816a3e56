import Tunix.Kernel.Balloc

/-!
# What the block allocator does to the bitmaps

The bitmap of a group whose bitmap was never written is the one `block_bitmap` would make
(`Volume.bitmap`), so asking for a bitmap changes no bitmap. `alloc_block` takes a block that is not
in use and marks it (`allocBlock_spec`); `release_block_now` changes the bit of its own block only
(`inUse_releaseBlockNow`).
-/

namespace Tunix.Ext4

open Bytes Volume Tunix.Ext4.Geometry

variable {v w : Volume} {group : Nat}

/-! ## The bitmap of a group -/

/-- The block bitmap of a group, whether it was written or not. -/
def Volume.bitmap (v : Volume) (group : Nat) : Buffer :=
  if v.uninit group then freshBitmap v.geometry (v.groups group) group else v.bitmaps group

/-- The group of a block and its bit in the group's bitmap. -/
def Geometry.groupOf (g : Geometry) (block : Nat) : Nat :=
  (block - g.firstDataBlock) / g.blocksPerGroup

def Geometry.bitOf (g : Geometry) (block : Nat) : Nat :=
  (block - g.firstDataBlock) % g.blocksPerGroup

/-- The bitmap has the block as in use. -/
def Volume.inUse (v : Volume) (block : Nat) : Bool :=
  bitTest (v.bitmap (v.geometry.groupOf block)) (v.geometry.bitOf block)

/-- Two volumes with the same layout, queue and bitmaps. -/
structure SameBitmaps (v w : Volume) : Prop where
  geometry : w.geometry = v.geometry
  pendingFree : w.pendingFree = v.pendingFree
  bitmap : ∀ group, w.bitmap group = v.bitmap group

private theorem SameBitmaps.refl (v : Volume) : SameBitmaps v v := ⟨rfl, rfl, fun _ => rfl⟩

private theorem SameBitmaps.trans {u : Volume} (h : SameBitmaps u v) (h' : SameBitmaps v w) :
    SameBitmaps u w :=
  ⟨h'.geometry.trans h.geometry, h'.pendingFree.trans h.pendingFree,
    fun group => (h'.bitmap group).trans (h.bitmap group)⟩

/-- The blocks in use are those of the bitmaps. -/
theorem SameBitmaps.inUse (h : SameBitmaps v w) (block : Nat) : w.inUse block = v.inUse block := by
  unfold Volume.inUse
  rw [h.geometry, h.bitmap]

/-- Replacing the bitmap of a group that has been written. -/
theorem bitmap_setBitmap (hinit : v.uninit group = false) (bits : Buffer) (other : Nat) :
    (v.setBitmap group bits).bitmap other = if other = group then bits else v.bitmap other := by
  by_cases hsame : other = group
  · subst hsame
    have hinit' : (v.setBitmap other bits).uninit other = false := hinit
    rw [if_pos rfl, bitmap, hinit']
    exact Function.update_self ..
  · rw [if_neg hsame, bitmap, bitmap]
    simp only [setBitmap, Function.update_of_ne hsame]
    rfl

private theorem sameBitmaps_markDirty (v : Volume) (group : Nat) (flags : UInt8) :
    SameBitmaps v (v.markDirty group flags) := ⟨rfl, rfl, fun _ => rfl⟩

private theorem sameBitmaps_sbSetFreeBlocks (v : Volume) (value : Nat) :
    SameBitmaps v (sbSetFreeBlocks v value) := ⟨rfl, rfl, fun _ => rfl⟩

/-- The counters of a descriptor do not matter to the bitmap. -/
theorem sameBitmaps_gdSetFreeBlocks (v : Volume) (group value : Nat) :
    SameBitmaps v (gdSetFreeBlocks v group value) := by
  refine ⟨rfl, rfl, fun other => ?_⟩
  by_cases hsame : other = group
  · subst hsame
    simp only [bitmap, uninit, gdSetFreeBlocks, setDesc, markDirty, Function.update_self]
    rfl
  · simp only [bitmap, uninit, gdSetFreeBlocks, setDesc, markDirty, Function.update_of_ne hsame]
    rfl

/-- Asking for a bitmap changes none, and gives the group's bitmap if it gives any. -/
theorem blockBitmap_spec (v : Volume) (group : Nat) : SameBitmaps v (blockBitmap v group).2 ∧
      ∀ bits, (blockBitmap v group).1 = some bits →
        bits = v.bitmap group ∧ (blockBitmap v group).2.uninit group = false := by
  -- The read may fail; a group whose bitmap was never written gets a fresh one.
  cases hread : v.reads.headD true with
  | false =>
    have heq : blockBitmap v group = (none, v.takeRead.2) := by
      simp only [blockBitmap, takeRead, hread]
      rfl
    rw [heq]
    exact ⟨⟨rfl, rfl, fun _ => rfl⟩, nofun⟩
  | true =>
    cases hinit : v.uninit group with
    | false =>
      have hinit' : v.takeRead.2.uninit group = false := hinit
      have heq : blockBitmap v group = (some (v.bitmaps group), v.takeRead.2) := by
        simp only [blockBitmap, show v.takeRead.1 = true from hread, hinit']
        rfl
      rw [heq]
      refine ⟨⟨rfl, rfl, fun _ => rfl⟩, fun bits hbits => ⟨?_, hinit'⟩⟩
      rw [← Option.some.inj hbits, bitmap, hinit]
      rfl
    | true =>
      have hinit' : v.takeRead.2.uninit group = true := hinit
      have hfresh : v.bitmap group = freshBitmap v.geometry (v.groups group) group := if_pos hinit
      have heq : blockBitmap v group = (some (v.bitmap group),
          ((v.takeRead.2.setBitmap group (v.bitmap group)).setDesc group
            { v.groups group with blockUninit := false }).markDirty group (1 ||| 4)) := by
        rw [hfresh]
        simp only [blockBitmap, show v.takeRead.1 = true from hread, hinit']
        rfl
      rw [heq]
      refine ⟨⟨rfl, rfl, fun other => ?_⟩, fun bits hbits => ⟨(Option.some.inj hbits).symm, ?_⟩⟩
      · by_cases hsame : other = group
        · subst hsame
          simp [bitmap, uninit, markDirty, setDesc, setBitmap]
        · simp [bitmap, uninit, markDirty, setDesc, setBitmap, takeRead,
            Function.update_of_ne hsame]
      · simp [uninit, markDirty, setDesc]

/-! ## The scan -/

private theorem scanPass_some {bits : Buffer} {stop fuel bit found : Nat}
    (h : scanPass bits stop fuel bit = some found) :
    found < stop ∧ bitTest bits found = false := by
  induction fuel generalizing bit with
  | zero => exact absurd h nofun
  | succ fuel ih =>
    rw [scanPass] at h
    split_ifs at h with hlt hword hclear
    · exact ih h
    · obtain rfl := Option.some.inj h
      exact ⟨hlt, by simpa using hclear⟩
    · exact ih h

/-- A scan finds a clear bit below the limit. -/
theorem bitmapScan_some {bits : Buffer} {start maxBits found : Nat}
    (h : bitmapScan bits start maxBits = some found) :
    found < maxBits ∧ bitTest bits found = false := by
  simp only [bitmapScan, Option.or_eq_some_iff] at h
  rcases h with h | ⟨-, h⟩
  · exact scanPass_some h
  obtain ⟨hlt, hclear⟩ := scanPass_some h
  refine ⟨lt_of_lt_of_le hlt ?_, hclear⟩
  split_ifs <;> omega

/-! ## Blocks and bits -/

private theorem groupBlockCount_le (g : Geometry) (group : Nat) :
    groupBlockCount g group ≤ g.blocksPerGroup := by
  unfold groupBlockCount
  dsimp only
  split_ifs
  · exact Nat.zero_le _
  · exact min_le_right ..

/-- A bit of a group's bitmap, as a block. -/
theorem block_of_bit {g : Geometry} {bit : Nat} (hbit : bit < groupBlockCount g group) :
    g.contains (groupFirstBlock g group + bit) ∧ g.groupOf (groupFirstBlock g group + bit) = group ∧
      g.bitOf (groupFirstBlock g group + bit) = bit := by
  have hper : bit < g.blocksPerGroup := lt_of_lt_of_le hbit (groupBlockCount_le g group)
  have hpos : 0 < g.blocksPerGroup := Nat.zero_lt_of_lt hper
  have hwithin :
      groupFirstBlock g group + bit - g.firstDataBlock = bit + group * g.blocksPerGroup := by
    unfold groupFirstBlock
    omega
  refine ⟨?_, ?_, ?_⟩
  · unfold groupBlockCount at hbit
    dsimp only at hbit
    split_ifs at hbit with hfirst
    · exact absurd hbit (Nat.not_lt_zero _)
    simp only [contains, decide_eq_true_eq]
    unfold groupFirstBlock at hbit hfirst ⊢
    omega
  · rw [groupOf, hwithin, Nat.add_mul_div_right _ _ hpos, Nat.div_eq_of_lt hper, zero_add]
  · rw [bitOf, hwithin, Nat.add_mul_mod_self_right, Nat.mod_eq_of_lt hper]

/-- Blocks of a volume with the same group and bit are the same. -/
theorem Geometry.block_ext {g : Geometry} {a b : Nat} (ha : g.contains a) (hb : g.contains b)
    (hgroup : g.groupOf a = g.groupOf b) (hbit : g.bitOf a = g.bitOf b) : a = b := by
  simp only [contains, decide_eq_true_eq] at ha hb
  have hwithin : a - g.firstDataBlock = b - g.firstDataBlock := by
    rw [← Nat.div_add_mod (a - g.firstDataBlock) g.blocksPerGroup,
      ← Nat.div_add_mod (b - g.firstDataBlock) g.blocksPerGroup]
    unfold groupOf at hgroup
    unfold bitOf at hbit
    rw [hgroup, hbit]
  omega

private theorem inUse_setBitmap (hinit : v.uninit group = false) (bits : Buffer) (block : Nat) :
    (v.setBitmap group bits).inUse block =
      if v.geometry.groupOf block = group then bitTest bits (v.geometry.bitOf block)
      else v.inUse block := by
  have hgeometry : (v.setBitmap group bits).geometry = v.geometry := rfl
  rw [inUse, hgeometry, bitmap_setBitmap hinit]
  split_ifs <;> rfl

/-! ## Allocation -/

/-- One block of the volume has been taken: it was free, and it is now in use. -/
structure Allocated (v : Volume) (block : Nat) (w : Volume) : Prop where
  geometry : w.geometry = v.geometry
  pendingFree : w.pendingFree = v.pendingFree
  contains : v.geometry.contains block
  free : v.inUse block = false
  inUse : ∀ other, v.geometry.contains other →
    w.inUse other = (decide (other = block) || v.inUse other)

private theorem SameBitmaps.allocated {u : Volume} {block : Nat} (h : SameBitmaps u v)
    (h' : Allocated v block w) : Allocated u block w where
  geometry := h'.geometry.trans h.geometry
  pendingFree := h'.pendingFree.trans h.pendingFree
  contains := h.geometry ▸ h'.contains
  free := (h.inUse block).symm.trans h'.free
  inUse := by
    intro other hother
    rw [h'.inUse other (h.geometry ▸ hother), h.inUse]

private theorem Allocated.sameBitmaps {u : Volume} {block : Nat} (h : Allocated u block v)
    (h' : SameBitmaps v w) : Allocated u block w where
  geometry := h'.geometry.trans h.geometry
  pendingFree := h'.pendingFree.trans h.pendingFree
  contains := h.contains
  free := h.free
  inUse := fun other hother => (h'.inUse other).trans (h.inUse other hother)

/-- Setting a clear bit of a written bitmap takes its block. -/
theorem allocated_setBitmap {bit : Nat} (hinit : v.uninit group = false)
    (hbit : bit < groupBlockCount v.geometry group)
    (hclear : bitTest (v.bitmap group) bit = false) :
    Allocated v (groupFirstBlock v.geometry group + bit)
      (v.setBitmap group (bitSet (v.bitmap group) bit)) := by
  obtain ⟨hcontains, hgroup, hbitOf⟩ := block_of_bit hbit
  refine ⟨rfl, rfl, hcontains, ?_, fun other hother => ?_⟩
  · rw [inUse, hgroup, hbitOf]
    exact hclear
  · rw [inUse_setBitmap hinit, bitTest_bitSet]
    by_cases hsame : v.geometry.groupOf other = group
    · rw [if_pos hsame, inUse, hsame]
      congr 1
      refine decide_eq_decide.mpr ⟨fun h => ?_, fun h => by rw [h, hbitOf]⟩
      exact v.geometry.block_ext hother hcontains (hsame.trans hgroup.symm) (h.trans hbitOf.symm)
    · have hne : other ≠ groupFirstBlock v.geometry group + bit := by
        rintro rfl
        exact hsame hgroup
      rw [if_neg hsame, decide_eq_false hne, Bool.false_or]

/-- The counters, the dirty flags and the cursor leave the bitmaps alone. -/
theorem sameBitmaps_takeBit (v : Volume) (group : Nat) (bits : Buffer) (bit : Nat) :
    SameBitmaps (v.setBitmap group (bitSet bits bit)) (takeBit v group bits bit) := by
  unfold takeBit
  dsimp only
  generalize v.setBitmap group (bitSet bits bit) = u
  have hcount := (sameBitmaps_gdSetFreeBlocks u group ((u.groups group).freeBlocks - 1)).trans
    (sameBitmaps_markDirty _ group 1)
  generalize (gdSetFreeBlocks u group ((u.groups group).freeBlocks - 1)).markDirty group 1 = w
    at hcount ⊢
  refine hcount.trans ?_
  split_ifs <;> exact ⟨rfl, rfl, fun _ => rfl⟩

/-- What a call of the allocator comes to: nothing happened and it gives 0, or it gives the block
    that it took. -/
def AllocOutcome (v : Volume) (result : Nat × Volume) : Prop :=
  (result.1 = 0 ∧ SameBitmaps v result.2) ∨ Allocated v result.1 result.2

private theorem SameBitmaps.allocOutcome {u : Volume} {result : Nat × Volume} (h : SameBitmaps u v)
    (h' : AllocOutcome v result) : AllocOutcome u result :=
  h'.imp (fun hnone => ⟨hnone.1, h.trans hnone.2⟩) h.allocated

/-- The loop takes a free block, or none. -/
private theorem allocLoop_spec (below4g : Bool)
    (startGroup startBit rounds index : Nat) (v : Volume) :
    AllocOutcome v (allocLoop below4g startGroup startBit rounds index v) := by
  induction rounds generalizing index v with
  | zero => exact .inl ⟨rfl, SameBitmaps.refl v⟩
  | succ rounds ih =>
    rw [allocLoop]
    dsimp only
    generalize (if (startGroup + index) % 2 ^ 32 ≥ v.geometry.groupCount then
      (startGroup + index) % 2 ^ 32 - v.geometry.groupCount
      else (startGroup + index) % 2 ^ 32) = group
    obtain ⟨hsame, hbits⟩ := blockBitmap_spec v group
    generalize (if index = 0 then startBit else 0) = start
    -- Groups that are full or too high are skipped.
    split_ifs with hempty hhigh
    · exact ih _ v
    · exact ih _ v
    generalize hread : blockBitmap v group = read at hsame hbits
    obtain ⟨_ | bits, w⟩ := read
    · exact hsame.allocOutcome (ih _ w)
    obtain ⟨hbits, hinit⟩ := hbits bits rfl
    dsimp only at hinit hsame ⊢
    split
    · exact hsame.allocOutcome (ih _ w)
    next bit hscan =>
      -- The bit that was found is clear in the bitmap as it was before.
      obtain ⟨hlt, hclear⟩ := bitmapScan_some hscan
      have hbit : bit < groupBlockCount w.geometry group := by
        split_ifs at hlt <;> omega
      rw [hbits, ← hsame.bitmap group] at hclear ⊢
      have htaken := allocated_setBitmap hinit hbit hclear
      refine .inr ?_
      rw [← hsame.geometry]
      exact hsame.allocated (htaken.sameBitmaps (sameBitmaps_takeBit ..))

/-- `alloc_block` gives 0 and takes nothing, or takes a free block of the volume. -/
theorem allocBlock_spec (v : Volume) (goal : Nat) (below4g : Bool) :
    AllocOutcome v (allocBlock v goal below4g) := by
  unfold allocBlock
  dsimp only
  split_ifs
  · exact allocLoop_spec ..
  · have hsame : SameBitmaps v { v with blockCursorGroup := 0, blockCursorBit := 0 } :=
      ⟨rfl, rfl, fun _ => rfl⟩
    exact hsame.allocOutcome (allocLoop_spec ..)
  · exact allocLoop_spec ..

/-! ## Release -/

/-- At most the bit of one block has changed. -/
structure Released (v : Volume) (block : Nat) (w : Volume) : Prop where
  geometry : w.geometry = v.geometry
  pendingFree : w.pendingFree = v.pendingFree
  inUse : ∀ other, v.geometry.contains other → other ≠ block → w.inUse other = v.inUse other

private theorem SameBitmaps.released (h : SameBitmaps v w) (block : Nat) : Released v block w :=
  ⟨h.geometry, h.pendingFree, fun other _ _ => h.inUse other⟩

private theorem sameBitmaps_dropBit (v : Volume) (group : Nat) (bits : Buffer) (bit : Nat) :
    SameBitmaps (v.setBitmap group (bitClear bits bit)) (dropBit v group bits bit) := by
  unfold dropBit
  generalize v.setBitmap group (bitClear bits bit) = u
  exact ((sameBitmaps_markDirty u group 1).trans (sameBitmaps_sbSetFreeBlocks _ _)).trans
    (sameBitmaps_gdSetFreeBlocks _ group _)

/-- Releasing a block clears its bit, if it is one of the volume. -/
theorem releaseBlockNow_spec (v : Volume) (block : Nat) :
    Released v block (releaseBlockNow v block) := by
  unfold releaseBlockNow
  split_ifs with hcontains
  · exact (SameBitmaps.refl v).released block
  dsimp only
  obtain ⟨hsame, hbits⟩ := blockBitmap_spec v (v.geometry.groupOf block)
  rw [groupOf] at hsame hbits
  generalize hread : blockBitmap v _ = read at hsame hbits
  obtain ⟨_ | bits, w⟩ := read
  · exact hsame.released block
  obtain ⟨hbits, hinit⟩ := hbits bits rfl
  dsimp only at hinit hsame ⊢
  split_ifs
  · exact hsame.released block
  have hrest := sameBitmaps_dropBit w
    ((block - v.geometry.firstDataBlock) / v.geometry.blocksPerGroup) bits
    ((block - v.geometry.firstDataBlock) % w.geometry.blocksPerGroup)
  refine ⟨hrest.geometry.trans hsame.geometry, hrest.pendingFree.trans hsame.pendingFree,
    fun other hother hne => ?_⟩
  rw [hrest.inUse, inUse_setBitmap hinit, bitTest_bitClear, hsame.geometry]
  split_ifs with hgroup
  · have hbit : v.geometry.bitOf other ≠ (block - v.geometry.firstDataBlock) %
        v.geometry.blocksPerGroup := fun hbit =>
      hne (v.geometry.block_ext hother (by simpa using hcontains) hgroup hbit)
    rw [decide_eq_false hbit, Bool.not_false, Bool.true_and, inUse, hgroup, hbits]
  · exact hsame.inUse other

end Tunix.Ext4
