import Tunix.Spec.FatTable

/-!
# Confinement of a partition

Requests of a partition come to its disk with the start of the partition added. For a request that
was checked, the only way out is a sum `lba + count` that comes round at 2^64. The FAT file system
does not check at all: it goes where the numbers of the clusters and the geometry of the volume lead
it. In a volume that fits into the partition, that is inside as long as the numbers are those of
clusters of the volume (`FatVolume.Sized.confines`). If the entries of the table and the file have
such numbers, the reads, writes and truncations of the file use no others, and leave no others in
the table (`FatDevice.inside_of_tidy`).
-/

namespace Tunix.Block

/-- All sectors of a request are sectors of the partition. -/
def PartitionDevice.Inside (d : PartitionDevice) (r : DiskRequest) : Prop :=
  d.start.toNat ≤ r.lba.toNat ∧ r.lba.toNat + r.count.toNat ≤ d.start.toNat + d.sectors.toNat

/-- A request stays inside exactly if its sectors are below the size of the partition, without
    coming round. -/
theorem PartitionDevice.inside_request_iff (d : PartitionDevice)
    (direction : Direction) (lba : UInt64)
    {count : UInt32} (hcount : count ≠ 0) :
    d.Inside (d.request direction lba count) ↔ lba.toNat + count.toNat ≤ d.sectors.toNat := by
  have hdisk := d.onDisk
  have hpos : 0 < count.toNat := Nat.pos_of_ne_zero fun h => hcount (UInt32.toNat.inj h)
  have hlba := lba.toNat_lt
  have hsum : (d.start + lba).toNat = (d.start.toNat + lba.toNat) % 2 ^ 64 := UInt64.toNat_add ..
  unfold PartitionDevice.Inside PartitionDevice.request
  dsimp only
  -- a sum that comes round is below the start
  rcases Nat.lt_or_ge (d.start.toNat + lba.toNat) (2 ^ 64) with hlt | hge
  · omega
  · have hround : (d.start.toNat + lba.toNat) % 2 ^ 64 = d.start.toNat + lba.toNat - 2 ^ 64 := by
      rw [Nat.mod_eq_sub_mod hge, Nat.mod_eq_of_lt (by omega)]
    omega

/-- The condition of a checked request: the check refuses it, or the sum does not come round. -/
def PartitionDevice.DirectFits (d : PartitionDevice) (direction : Direction) (lba : UInt64)
    (count : UInt32) : Prop :=
  d.offers direction = true → count ≠ 0 → (lba.toNat + count.toNat) % 2 ^ 64 ≤ d.sectors.toNat →
    lba.toNat + count.toNat < 2 ^ 64

private theorem PartitionDevice.inside_blockDevice_iff (d : PartitionDevice)
    (direction : Direction) (lba : UInt64)
    (count : UInt32) :
    (∀ r ∈ d.blockDevice direction lba count, d.Inside r) ↔ d.DirectFits direction lba count := by
  have hsectors := d.sectors.toNat_lt
  unfold PartitionDevice.blockDevice PartitionDevice.DirectFits
  split_ifs with hoffers hcheck
  · refine ⟨fun _ hoffered hcount => ?_, fun _ => nofun⟩
    rcases hoffers with hnot | hzero
    · rw [hoffered] at hnot
      cases hnot
    · exact absurd hzero hcount
  · have hcheck : d.sectors.toNat < (lba.toNat + count.toNat) % 2 ^ 64 := by
      exact UInt64.lt_iff_toNat_lt.mp hcheck
    exact ⟨fun _ _ _ hle => absurd hle (Nat.not_le_of_lt hcheck), fun _ => nofun⟩
  · obtain ⟨hoffered, hcount⟩ := not_or.mp hoffers
    have hcheck : (lba.toNat + count.toNat) % 2 ^ 64 ≤ d.sectors.toNat := by
      exact UInt64.le_iff_toNat_le.mp (UInt64.not_lt.mp hcheck)
    have hone : (∀ r ∈ some (d.request direction lba count), d.Inside r) ↔
        lba.toNat + count.toNat ≤ d.sectors.toNat := by
      rw [← d.inside_request_iff direction lba hcount]
      simp
    rw [hone]
    constructor
    · omega
    · intro hfits
      have hlt := hfits (by simpa using hoffered) hcount hcheck
      rw [Nat.mod_eq_of_lt hlt] at hcheck
      exact hcheck

end Tunix.Block

namespace Tunix.Fat

open Block

/-! ## Programs on a disk -/

/-- A disk, and what was asked of it. -/
structure FatRun where
  disk : Nat → Nat → UInt8
  requests : List DiskRequest

/-- A partition with a volume, and which requests the disk fails. -/
structure FatDevice where
  device : PartitionDevice
  volume : FatVolume
  fails : Nat → Bool

def FatDevice.request (d : FatDevice) (direction : Direction) (use : FatUse) : DiskRequest :=
  d.device.request direction (d.volume.sector use) use.count

/-- The run with one more request. -/
def FatDevice.ask (d : FatDevice) (s : FatRun) (direction : Direction) (use : FatUse) : FatRun :=
  { s with requests := s.requests ++ [d.request direction use] }

/-- The sectors of a request, one behind the other. -/
def DiskRequest.sectors (r : DiskRequest) (disk : Nat → Nat → UInt8) : Nat → UInt8 := fun i =>
  disk (r.lba.toNat + i / blockSectorSize) (i % blockSectorSize)

/-- The disk after a write. -/
def DiskRequest.store (r : DiskRequest) (data : Nat → UInt8) (disk : Nat → Nat → UInt8) :
    Nat → Nat → UInt8 := fun lba i =>
  if r.lba.toNat ≤ lba ∧ lba < r.lba.toNat + r.count.toNat ∧ i < blockSectorSize then
    data ((lba - r.lba.toNat) * blockSectorSize + i)
  else disk lba i

/-- A program on a disk. -/
def FatDevice.run (d : FatDevice) {α : Type} : FatProg α → FatRun → α × FatRun
  | .done a, s => (a, s)
  | .read use next, s =>
    let failed := d.fails s.requests.length
    let answer := if failed then none else some (DiskRequest.sectors (d.request .read use) s.disk)
    d.run (next answer) (d.ask s .read use)
  | .write use data next, s =>
    let failed := d.fails s.requests.length
    let s' := d.ask s .write use
    let s' := if failed then
      s' else { s' with disk := DiskRequest.store (d.request .write use) data s.disk }
    d.run (next !failed) s'

private theorem FatDevice.run_bind (d : FatDevice) {α β : Type} (p : FatProg α)
    (f : α → FatProg β) (s : FatRun) :
    d.run (p >>= f) s = d.run (f (d.run p s).1) (d.run p s).2 := by
  change d.run (p.bind f) s = _
  induction p generalizing s with
  | done a => rfl
  | read use next ih => exact ih _ _
  | write use data next ih => exact ih _ _

/-! ## Volumes that fit -/

/-- The geometry of a volume fits into a number of sectors: the copies of the table, each with room
    for the entries of all clusters, with a sector behind them, the root directory and the
    clusters. -/
structure FatVolume.Sized (v : FatVolume) (sectors : Nat) : Prop where
  bytes : v.clusterBytes.toNat = 512 * v.sectorsPerCluster.toNat
  table : v.fatStart.toNat + v.fatCount.toNat * v.fatSectors.toNat + 1 ≤ sectors
  entries : ∀ cluster : UInt32, cluster.toNat < v.clusterCount.toNat + 2 →
    (v.entryOffset cluster).toNat / 512 < v.fatSectors.toNat
  root : v.rootStart.toNat + v.rootSectors.toNat ≤ sectors
  data : v.dataStart.toNat + v.clusterCount.toNat * v.sectorsPerCluster.toNat ≤ sectors

/-- A use of something that the volume has. -/
def FatVolume.Has (v : FatVolume) : FatUse → Prop
  | .entry copy cluster => copy.toNat < v.fatCount.toNat ∧ cluster.toNat < v.clusterCount.toNat + 2
  | .data cluster within => 2 ≤ cluster.toNat ∧ cluster.toNat < v.clusterCount.toNat + 2 ∧
    within.toNat < v.clusterBytes.toNat
  | .root offset => offset.toNat / 512 < v.rootSectors.toNat

/-- Where the sectors of a use are, as numbers that do not come round. -/
def FatVolume.place (v : FatVolume) : FatUse → Nat
  | .entry copy cluster =>
    v.fatStart.toNat + copy.toNat * v.fatSectors.toNat + (v.entryOffset cluster).toNat / 512
  | .data cluster within =>
    v.dataStart.toNat + (cluster.toNat - 2) * v.sectorsPerCluster.toNat + within.toNat / 512
  | .root offset => v.rootStart.toNat + offset.toNat / 512

/-- What the volume has is where the arithmetic of the code says, and below its end. -/
theorem FatVolume.Sized.toNat_sector {v : FatVolume} {sectors : Nat} (hv : v.Sized sectors)
    (hsectors : sectors < 2 ^ 64)
    {use : FatUse} (huse : v.Has use) :
    (v.sector use).toNat = v.place use ∧ v.place use + use.count.toNat ≤ sectors := by
  have hsize : bytesPerSector.toUInt64.toNat = 512 := rfl
  have hsize' : bytesPerSector.toNat = 512 := rfl
  cases use with
  | entry copy cluster =>
    obtain ⟨hcopy, hcluster⟩ := huse
    have hentry := hv.entries cluster hcluster
    have htable := hv.table
    -- the entry is in the copy of the table, and the copy in the table
    have hmul : (copy.toNat + 1) * v.fatSectors.toNat ≤ v.fatCount.toNat * v.fatSectors.toNat :=
      Nat.mul_le_mul_right _ hcopy
    rw [Nat.succ_mul] at hmul
    have hprod : copy.toNat * v.fatSectors.toNat < 2 ^ 64 := by omega
    have hcount : (FatUse.entry copy cluster).count.toNat = 2 := rfl
    simp only [FatVolume.sector, FatVolume.place, UInt64.toNat_add, UInt64.toNat_mul,
      UInt64.toNat_div,
      UInt32.toNat_toUInt64, hsize, hcount]
    rw [Nat.mod_eq_of_lt hprod, Nat.mod_eq_of_lt (a := _ + copy.toNat * _) (by omega),
      Nat.mod_eq_of_lt (by omega)]
    omega
  | data cluster within =>
    obtain ⟨hlow, hhigh, hwithin⟩ := huse
    have hdata := hv.data
    have hindex : (cluster - 2).toNat = cluster.toNat - 2 :=
      UInt32.toNat_sub_of_le _ _ (UInt32.le_iff_toNat_le.mpr hlow)
    -- the sector is in the cluster, and the cluster in the data area
    have hinner : within.toNat / 512 < v.sectorsPerCluster.toNat := by
      rw [hv.bytes] at hwithin
      omega
    have hmul : (cluster.toNat - 2 + 1) * v.sectorsPerCluster.toNat ≤
        v.clusterCount.toNat * v.sectorsPerCluster.toNat :=
      Nat.mul_le_mul_right _ (by omega)
    rw [Nat.succ_mul] at hmul
    have hcount : (FatUse.data cluster within).count.toNat = 1 := rfl
    simp only [FatVolume.sector, FatVolume.place, FatVolume.clusterSector, UInt64.toNat_add,
      UInt64.toNat_mul,
      UInt32.toNat_toUInt64, UInt32.toNat_div, hindex, hsize', hcount]
    rw [Nat.mod_eq_of_lt (a := (cluster.toNat - 2) * _) (by omega),
      Nat.mod_eq_of_lt (a := _ + (cluster.toNat - 2) * _) (by omega), Nat.mod_eq_of_lt (by omega)]
    omega
  | root offset =>
    have hroot := hv.root
    change offset.toNat / 512 < v.rootSectors.toNat at huse
    have hcount : (FatUse.root offset).count.toNat = 1 := rfl
    simp only [FatVolume.sector, FatVolume.place, UInt64.toNat_add, UInt64.toNat_div,
      UInt32.toNat_toUInt64, hsize, hcount]
    rw [Nat.mod_eq_of_lt (by omega)]
    omega

/-- The sectors of a use are below the size of the partition. -/
def FatDevice.UseFits (d : FatDevice) (use : FatUse) : Prop :=
  (d.volume.sector use).toNat + use.count.toNat ≤ d.device.sectors.toNat

/-- A volume that fits into its partition does not lead out of it as long as the clusters are its
    own. -/
theorem FatVolume.Sized.confines {d : FatDevice}
    (hv : d.volume.Sized d.device.sectors.toNat) {use : FatUse}
    (huse : d.volume.Has use) : d.UseFits use := by
  obtain ⟨hsector, hend⟩ := hv.toNat_sector d.device.sectors.toNat_lt huse
  rwa [FatDevice.UseFits, hsector]

/-! ## The numbers in the table -/

open FatDevice FatVolume DiskRequest

/-- The number of a cluster of the volume, or none. -/
def FatVolume.Link (v : FatVolume) (cluster : UInt32) : Prop :=
  cluster = 0 ∨ 2 ≤ cluster.toNat ∧ cluster.toNat < v.clusterCount.toNat + 2

/-- What an entry of the table may say: a link, or that the chain ends. -/
def FatVolume.Good (v : FatVolume) (value : UInt32) : Prop :=
  v.Link value ∨ v.clusterIsEnd value = true

/-- A volume that fits, where the table has room for the entries of all clusters, ends before the
    root directory and the clusters, and has numbers enough for them. -/
structure FatVolume.Laid (v : FatVolume) (sectors : Nat) : Prop extends v.Sized sectors where
  wide : v.Wide
  numbers : ∀ cluster : UInt32, cluster.toNat < v.clusterCount.toNat + 2 →
    v.clusterIsEnd cluster = false ∧ v.Fits cluster.toNat
  whole : ∀ cluster : UInt32, cluster.toNat < v.clusterCount.toNat + 2 →
    (v.entryOffset cluster).toNat + v.entryWidth ≤ 512 * v.fatSectors.toNat
  clusterBytes : 0 < v.clusterBytes.toNat
  copies : 0 < v.fatCount.toNat
  beforeRoot : v.rootSectors ≠ 0 → v.fatStart.toNat + v.fatSectors.toNat ≤ v.rootStart.toNat
  beforeData : v.fatStart.toNat + v.fatSectors.toNat ≤ v.dataStart.toNat

section Table

variable (d : FatDevice) (disk : Nat → Nat → UInt8)

/-- The entry of a cluster, as `fat_entry_read` reads it from the disk. -/
def FatDevice.entry (cluster : UInt32) : UInt32 :=
  d.volume.entryValue cluster (sectors (d.request .read (.entry 0 cluster)) disk)

/-- The entries of all clusters are good. Nothing leads to the entry 1. -/
def FatDevice.Tidy : Prop :=
  ∀ cluster : UInt32, cluster.toNat < d.volume.clusterCount.toNat + 2 → cluster ≠ 1 →
  d.volume.Good (d.entry disk cluster)

/-- The bytes of the table on the disk. -/
def FatDevice.table (i : Nat) : UInt8 :=
  disk (d.device.start.toNat + d.volume.fatStart.toNat + i / 512) (i % 512)

variable {d disk} {disk' : Nat → Nat → UInt8} {cluster cluster' : UInt32} {use : FatUse}
    {direction : Direction}
  (hv : d.volume.Laid d.device.sectors.toNat)

include hv

private theorem FatDevice.toNat_lba (huse : d.volume.Has use) :
    (d.request direction use).lba.toNat = d.device.start.toNat + d.volume.place use := by
  obtain ⟨hsector, hend⟩ := hv.toNat_sector d.device.sectors.toNat_lt huse
  have hdisk := d.device.onDisk
  change (d.device.start + d.volume.sector use).toNat = _
  rw [UInt64.toNat_add, hsector, Nat.mod_eq_of_lt (by omega)]

private theorem FatVolume.Laid.has_entry
    (hcluster : cluster.toNat < d.volume.clusterCount.toNat + 2) :
    d.volume.Has (.entry 0 cluster) := ⟨hv.copies, hcluster⟩

/-- The sectors that an entry is read from are a part of the table. -/
theorem FatDevice.sectors_entry
    (hcluster : cluster.toNat < d.volume.clusterCount.toNat + 2) (i : Nat) :
    sectors (d.request direction (.entry 0 cluster)) disk i =
      d.table disk ((d.volume.entryOffset cluster).toNat / 512 * 512 + i) := by
  have hzero : (0 : UInt32).toNat = 0 := rfl
  unfold sectors FatDevice.table blockSectorSize
  rw [toNat_lba hv (hv.has_entry hcluster), FatVolume.place, hzero]
  congr 1 <;> omega

private theorem FatDevice.toNat_entry (hcluster : cluster.toNat < d.volume.clusterCount.toNat + 2) :
    (d.entry disk cluster).toNat = d.volume.tableValue (d.table disk) cluster :=
  toNat_entryValue hv.wide fun k _ => by
    rw [sectors_entry hv hcluster, ← Nat.add_assoc, Nat.div_add_mod']

/-- What does not change the table leaves it tidy. -/
theorem FatDevice.Tidy.congr (h : d.Tidy disk)
    (htable : ∀ i < 512 * d.volume.fatSectors.toNat, d.table disk' i = d.table disk i) :
    d.Tidy disk' := by
  intro cluster hcluster hone
  have hwhole := hv.whole cluster hcluster
  have hsame : d.entry disk' cluster = d.entry disk cluster := by
    apply UInt32.toNat.inj
    rw [toNat_entry hv hcluster, toNat_entry hv hcluster]
    unfold FatVolume.tableValue
    rw [bytesValue_congr fun k hk => htable _ (by omega)]
  rw [hsame]
  exact h cluster hcluster hone

/-- A write behind the first copy of the table leaves it as it is. -/
theorem FatDevice.Tidy.store_behind (h : d.Tidy disk) (huse : d.volume.Has use) {data : Nat → UInt8}
    (hbehind : d.volume.fatStart.toNat + d.volume.fatSectors.toNat ≤ d.volume.place use) :
    d.Tidy (store (d.request .write use) data disk) := by
  refine h.congr hv fun i hi => ?_
  unfold FatDevice.table store
  rw [toNat_lba hv huse]
  exact if_neg (by omega)

/-- The write of an entry into the first copy changes the bytes of the entry. -/
private theorem FatDevice.table_store_entry
    (hcluster : cluster.toNat < d.volume.clusterCount.toNat + 2) (word : UInt32) :
    d.table (store (d.request .write (.entry 0 cluster))
      (putBytes (sectors (d.request .read (.entry 0 cluster)) disk)
        ((d.volume.entryOffset cluster).toNat % 512) d.volume.entryWidth word) disk) =
      putBytes (d.table disk) (d.volume.entryOffset cluster).toNat d.volume.entryWidth word := by
  funext i
  have hwidth : d.volume.entryWidth ≤ 4 := by
    unfold FatVolume.entryWidth
    split_ifs <;> decide
  have hlba : (d.request .write (.entry 0 cluster)).lba.toNat = _ :=
    toNat_lba hv (hv.has_entry hcluster)
  have hplace : d.volume.place (.entry 0 cluster) = d.volume.fatStart.toNat +
      0 * d.volume.fatSectors.toNat + (d.volume.entryOffset cluster).toNat / 512 := rfl
  have hcount : (d.request .write (.entry 0 cluster)).count.toNat = 2 := rfl
  unfold FatDevice.table store blockSectorSize
  rw [hlba, hplace, hcount]
  -- the two sectors, with the bytes of the entry in the first one or at its end
  by_cases hin : (d.volume.entryOffset cluster).toNat / 512 ≤ i / 512 ∧
      i / 512 < (d.volume.entryOffset cluster).toNat / 512 + 2
  · have hat : (d.device.start.toNat + d.volume.fatStart.toNat + i / 512 - (d.device.start.toNat +
        (d.volume.fatStart.toNat + 0 * d.volume.fatSectors.toNat +
          (d.volume.entryOffset cluster).toNat / 512))) * 512 +
        i % 512 = i - (d.volume.entryOffset cluster).toNat / 512 * 512 := by omega
    rw [if_pos (by omega), hat]
    unfold putBytes
    by_cases hbyte : (d.volume.entryOffset cluster).toNat ≤ i ∧
      i < (d.volume.entryOffset cluster).toNat + d.volume.entryWidth
    · rw [if_pos (by omega), if_pos hbyte]
      congr 4
      omega
    · rw [if_neg (by omega), if_neg hbyte, sectors_entry hv hcluster,
        Nat.add_sub_of_le (by omega)]
      rfl
  · rw [if_neg (by omega), putBytes, if_neg (by omega)]

/-- The write of an entry into the first copy leaves all others as they are. -/
theorem FatDevice.Tidy.store_entry (h : d.Tidy disk)
    (hcluster : cluster.toNat < d.volume.clusterCount.toNat + 2)
    {value : UInt32} (hgood : d.volume.Good value) (hfits : d.volume.Fits value.toNat) :
    d.Tidy (store (d.request .write (.entry 0 cluster)) (d.volume.withEntry cluster value
      (sectors (d.request .read (.entry 0 cluster)) disk)) disk) := by
  obtain ⟨word, hwith, hword⟩ : ∃ word, d.volume.withEntry cluster value _ = _ ∧ _ :=
    withEntry_eq hv.wide value hfits (sectors (d.request .read (.entry 0 cluster)) disk)
  rw [bytesValue_congr fun k _ => (sectors_entry hv hcluster _).trans
    (by rw [← Nat.add_assoc, Nat.div_add_mod'])] at hword
  intro cluster' hcluster' hone
  have htable := @table_store_entry d disk cluster hv hcluster word
  rw [← hwith] at htable
  generalize store _ _ disk = disk' at htable ⊢
  have hentry : (d.entry disk' cluster').toNat = _ := toNat_entry hv hcluster'
  rw [htable] at hentry
  by_cases hsame : cluster' = cluster
  · rw [hsame, tableValue_putBytes hv.wide hfits hword] at hentry
    rwa [hsame, UInt32.toNat.inj hentry]
  · rw [tableValue_putBytes_of_ne hv.wide hfits hword hsame, ← toNat_entry hv hcluster'] at hentry
    rw [UInt32.toNat.inj hentry]
    exact h cluster' hcluster' hone

end Table

/-! ## What the programs keep -/

/-- The table is tidy, and nothing was asked for outside of the partition. -/
structure FatDevice.Sound (d : FatDevice) (s : FatRun) : Prop where
  tidy : d.Tidy s.disk
  inside : ∀ r ∈ s.requests, d.device.Inside r

/-- A program leaves a sound run sound, and its result is as described. -/
def FatDevice.Keeps (d : FatDevice) {α : Type} (p : FatProg α) (result : α → Prop) : Prop :=
  ∀ s, d.Sound s → d.Sound (d.run p s).2 ∧ result (d.run p s).1

section Rules

variable {d : FatDevice} {α β : Type} {p : FatProg α} {result : α → Prop}

/-- A result that needs no request. -/
theorem FatDevice.Keeps.pure {a : α} (h : result a) : d.Keeps (pure a) result := fun _ hs => ⟨hs, h⟩

/-- One program behind another. -/
theorem FatDevice.Keeps.bind {f : α → FatProg β} {result' : β → Prop} (hp : d.Keeps p result)
    (hf : ∀ a, result a → d.Keeps (f a) result') : d.Keeps (p >>= f) result' := by
  intro s hs
  obtain ⟨hsound, hresult⟩ := hp s hs
  rw [d.run_bind]
  exact hf _ hresult _ hsound

/-- A program that goes on only after a success. -/
theorem FatDevice.Keeps.bind_ite {p : FatProg Bool} {f g : FatProg β} {result' : β → Prop}
    (hp : d.Keeps p fun _ => True)
    (hf : d.Keeps f result') (hg : d.Keeps g result') :
    d.Keeps (p >>= fun ok => if ok then f else g) result' := by
  refine hp.bind fun ok _ => ?_
  split_ifs
  · exact hf
  · exact hg

end Rules

section Keeps

variable {d : FatDevice} {cluster value : UInt32} {use : FatUse} {data : Nat → UInt8}
    (writable : Bool)
  (hv : d.volume.Laid d.device.sectors.toNat)

include hv

/-- A use that the volume has makes a request inside. -/
theorem FatDevice.Sound.ask {s : FatRun} (hs : d.Sound s) (direction : Direction)
    (huse : d.volume.Has use) :
    d.Sound (d.ask s direction use) := by
  refine ⟨hs.tidy, fun r hr => ?_⟩
  rcases List.mem_append.mp hr with hr | hr
  · exact hs.inside r hr
  · rw [List.mem_singleton.mp hr]
    have hcount : use.count ≠ 0 := by cases use <;> simp [FatUse.count]
    exact (d.device.inside_request_iff direction _ hcount).mpr (hv.confines huse)

/-- Reading a use that the volume has. -/
theorem FatDevice.keeps_read (huse : d.volume.Has use) : d.Keeps (readSectors use) fun _ => True :=
  fun _ hs => ⟨hs.ask hv .read huse, trivial⟩

private theorem FatDevice.keeps_write (huse : d.volume.Has use)
    (hbehind : d.volume.fatStart.toNat + d.volume.fatSectors.toNat ≤ d.volume.place use) :
    d.Keeps (writeSectors writable use data) fun _ => True := by
  intro s hs
  have hask := hs.ask hv .write huse
  unfold writeSectors
  split_ifs
  · refine ⟨?_, trivial⟩
    change d.Sound (if d.fails s.requests.length then _ else _)
    split_ifs
    · exact hask
    · exact ⟨hs.tidy.store_behind hv huse hbehind, hask.inside⟩
  · exact ⟨hs, trivial⟩

/-- The entry of a cluster is a good one. -/
theorem FatDevice.keeps_entryRead (hcluster : cluster.toNat < d.volume.clusterCount.toNat + 2) :
    d.Keeps (d.volume.entryRead cluster) fun answer => ∀ value ∈ answer, cluster ≠ 1 →
      d.volume.Good value := by
  intro s hs
  have hrun : d.run (d.volume.entryRead cluster) s = (if d.fails s.requests.length then none
      else some (d.entry s.disk cluster), d.ask s .read (.entry 0 cluster)) := by
    change d.run (FatProg.read _ _) s = _
    rw [FatDevice.run]
    split_ifs <;> rfl
  rw [hrun]
  refine ⟨hs.ask hv .read (hv.has_entry hcluster), fun value hmem hone => ?_⟩
  dsimp only at hmem
  split_ifs at hmem
  · cases hmem
  · rw [← Option.some.inj hmem]
    exact hs.tidy cluster hcluster hone

/-- Each copy has its turn; what is put into the first one is good. -/
theorem FatDevice.keeps_entryWriteCopy {copy : UInt32} (huse : d.volume.Has (.entry copy cluster))
    (hgood : d.volume.Good value) (hfits : d.volume.Fits value.toNat) :
    d.Keeps (d.volume.entryWriteCopy writable cluster value copy) fun _ => True := by
  by_cases hcopy : copy = 0
  · subst hcopy
    intro s hs
    refine ⟨?_, trivial⟩
    have hread := hs.ask hv .read huse
    have hwrite := hread.ask hv .write huse
    change d.Sound (d.run (FatProg.read _ _) s).2
    rw [FatDevice.run]
    split_ifs
    · exact hread
    change d.Sound (d.run (writeSectors _ _ _) _).2
    unfold writeSectors
    split_ifs
    · change d.Sound (if d.fails _ then _ else _)
      split_ifs
      · exact hwrite
      · exact ⟨hs.tidy.store_entry hv huse.2 hgood hfits, hwrite.inside⟩
    · exact hread
  · refine (keeps_read hv huse).bind fun answer _ => ?_
    cases answer with
    | none => exact .pure trivial
    | some sectors =>
      refine keeps_write writable hv huse ?_
      have hpos : 1 ≤ copy.toNat := Nat.one_le_iff_ne_zero.mpr fun h => hcopy (UInt32.toNat.inj h)
      have hmul := Nat.mul_le_mul_right d.volume.fatSectors.toNat hpos
      rw [FatVolume.place]
      omega

omit hv in
/-- A link leads to a cluster of the volume. -/
theorem FatVolume.Link.lt (hlink : d.volume.Link value) :
    value.toNat < d.volume.clusterCount.toNat + 2 := by
  rcases hlink with rfl | ⟨-, hlt⟩
  · exact Nat.succ_pos _
  · exact hlt

private theorem FatVolume.Laid.endMark_end :
    d.volume.clusterIsEnd d.volume.endMark = true ∧ d.volume.Fits d.volume.endMark.toNat := by
  unfold FatVolume.clusterIsEnd FatVolume.endMark FatVolume.Fits
  rcases hv.wide with hbits | hbits | hbits <;> rw [hbits] <;> decide

/-- Writing a good entry keeps the table tidy. -/
theorem FatDevice.keeps_entryWrite (hcluster : cluster.toNat < d.volume.clusterCount.toNat + 2)
    (hvalue : d.volume.Link value ∨ value = d.volume.endMark) :
    d.Keeps (d.volume.entryWrite writable cluster value) fun _ => True := by
  have hgood : d.volume.Good value ∧ d.volume.Fits value.toNat := by
    rcases hvalue with hlink | rfl
    · exact ⟨Or.inl hlink, (hv.numbers value (hlink.lt)).2⟩
    · exact ⟨Or.inr hv.endMark_end.1, hv.endMark_end.2⟩
  have hloop (copies : Nat) (copy : UInt32)
      (hcopies : copy.toNat + copies = d.volume.fatCount.toNat) :
      d.Keeps (d.volume.entryWriteCopies writable cluster value copies copy) fun _ => True := by
    induction copies generalizing copy with
    | zero => exact .pure trivial
    | succ copies ih =>
      refine .bind_ite (keeps_entryWriteCopy writable hv ⟨by omega, hcluster⟩ hgood.1 hgood.2)
        (ih _ ?_) (.pure trivial)
      have hlt := d.volume.fatCount.toNat_lt
      have hnext : (copy + 1).toNat = copy.toNat + 1 := (UInt32.toNat_add ..).trans
        (Nat.mod_eq_of_lt (show copy.toNat + 1 < 2 ^ 32 by omega))
      omega
  exact hloop _ 0 (Nat.zero_add _)

private theorem FatDevice.keeps_allocateFrom (turns : Nat) (hlow : 2 ≤ cluster.toNat) :
    d.Keeps (d.volume.allocateFrom writable turns cluster) d.volume.Link := by
  induction turns generalizing cluster with
  | zero => exact .pure (Or.inl rfl)
  | succ turns ih =>
    unfold FatVolume.allocateFrom
    split_ifs with hend
    · exact .pure (Or.inl rfl)
    have hlt : cluster.toNat < (d.volume.clusterCount + 2).toNat :=
      UInt32.lt_iff_toNat_lt.mp (UInt32.not_le.mp hend)
    have hsum : (d.volume.clusterCount + 2).toNat ≤ d.volume.clusterCount.toNat + 2 :=
      (UInt32.toNat_add ..).trans_le (Nat.mod_le _ _)
    have hword := (d.volume.clusterCount + 2).toNat_lt
    refine (keeps_entryRead hv (by omega)).bind fun answer _ => ?_
    cases answer with
    | none => exact .pure (Or.inl rfl)
    | some value =>
      dsimp only
      split_ifs
      · have hnext : (cluster + 1).toNat = cluster.toNat + 1 := (UInt32.toNat_add ..).trans
          (Nat.mod_eq_of_lt (show cluster.toNat + 1 < 2 ^ 32 by omega))
        exact ih (by omega)
      · exact .bind_ite (keeps_entryWrite writable hv (by omega) (Or.inr rfl))
          (.pure (Or.inr ⟨hlow, by omega⟩)) (.pure (Or.inl rfl))

private theorem FatDevice.keeps_allocateCluster :
    d.Keeps (d.volume.allocateCluster writable) d.volume.Link :=
  keeps_allocateFrom writable hv _ (show 2 ≤ 2 from le_rfl)

omit hv in
private theorem FatVolume.Link.ne_one (hlink : d.volume.Link cluster) : cluster ≠ 1 := by
  rintro rfl
  rcases hlink with h | ⟨h, -⟩
  · cases h
  · exact absurd h (by decide)

/-- A good entry that is not the end of a chain is a link. -/
theorem FatDevice.keeps_clusterWalk (grow : Bool) (steps : Nat) (hlink : d.volume.Link cluster) :
    d.Keeps (d.volume.clusterWalk writable grow steps cluster) d.volume.Link := by
  induction steps generalizing cluster with
  | zero => exact .pure hlink
  | succ steps ih =>
    refine (keeps_entryRead hv hlink.lt).bind fun answer hanswer => ?_
    cases answer with
    | none => exact .pure (Or.inl rfl)
    | some next =>
      dsimp only
      split_ifs with hend
      · exact ih ((hanswer next rfl hlink.ne_one).resolve_right (by simpa using hend))
      · exact .pure (Or.inl rfl)
      · refine (keeps_allocateCluster writable hv).bind fun next hnext => ?_
        split_ifs
        · exact .pure (Or.inl rfl)
        · exact .bind_ite (keeps_entryWrite writable hv hlink.lt (Or.inl hnext)) (ih hnext)
            (.pure (Or.inl rfl))

/-- Walking along a chain stays in the volume. -/
theorem FatDevice.keeps_clusterAt {first : UInt32}
    (hfirst : first.toNat < d.volume.clusterCount.toNat + 2)
    (offset : UInt64) (grow : Bool) :
    d.Keeps (d.volume.clusterAt writable first offset grow) d.volume.Link := by
  unfold FatVolume.clusterAt
  split_ifs with hlow
  · exact .pure (Or.inl rfl)
  · exact keeps_clusterWalk writable hv grow _
      (Or.inr ⟨UInt32.le_iff_toNat_le.mp (UInt32.not_lt.mp hlow), hfirst⟩)

/-- A sector of a cluster is one of the volume. -/
theorem FatVolume.Laid.has_data (hlink : d.volume.Link cluster) (hzero : cluster ≠ 0)
    (offset : UInt64) :
    d.volume.Has (.data cluster (offset % d.volume.clusterBytes.toUInt64).toUInt32) := by
  obtain ⟨hlow, hhigh⟩ := hlink.resolve_left hzero
  refine ⟨hlow, hhigh, ?_⟩
  have hpos := hv.clusterBytes
  have hlt := d.volume.clusterBytes.toNat_lt
  have hmod := Nat.mod_lt offset.toNat hpos
  rw [UInt64.toNat_toUInt32, UInt64.toNat_mod, UInt32.toNat_toUInt64, Nat.mod_eq_of_lt (by omega)]
  exact hmod

private theorem FatVolume.Laid.behind_data (within : UInt32) :
    d.volume.fatStart.toNat + d.volume.fatSectors.toNat ≤
      d.volume.place (.data cluster within) := by
  have hdata := hv.beforeData
  rw [FatVolume.place]
  omega

/-! ### Directories -/

section Directory

variable (offset : UInt64) (hcluster : cluster.toNat < d.volume.clusterCount.toNat + 2)

include hcluster

private theorem FatDevice.keeps_directoryRead :
    d.Keeps (d.volume.directoryRead writable cluster offset) fun _ => True := by
  unfold FatVolume.directoryRead
  split_ifs with hroot hend
  · exact .pure trivial
  · exact keeps_read hv (UInt64.lt_iff_toNat_lt.mp (UInt64.not_le.mp hend))
  · refine (keeps_clusterAt writable hv hcluster offset false).bind fun here hlink => ?_
    split_ifs with hzero
    · exact .pure trivial
    · exact keeps_read hv (hv.has_data hlink hzero offset)

private theorem FatDevice.keeps_directoryWrite :
    d.Keeps (d.volume.directoryWrite writable cluster offset data) fun _ => True := by
  unfold FatVolume.directoryWrite
  split_ifs with hroot hend
  · exact .pure trivial
  · have hlt : offset.toNat / 512 < d.volume.rootSectors.toNat :=
      UInt64.lt_iff_toNat_lt.mp (UInt64.not_le.mp hend)
    refine keeps_write writable hv hlt ?_
    have hbefore := hv.beforeRoot fun h0 => by simp [h0] at hlt
    rw [FatVolume.place]
    omega
  · refine (keeps_clusterAt writable hv hcluster offset false).bind fun here hlink => ?_
    split_ifs with hzero
    · exact .pure trivial
    · exact keeps_write writable hv (hv.has_data hlink hzero offset) (hv.behind_data _)

end Directory

/-! ### Files -/

section File

variable {file : FatFile}

private theorem FatDevice.keeps_writeDirectoryEntry
    (hentry : file.entryCluster.toNat < d.volume.clusterCount.toNat + 2)
    (size firstCluster : UInt32) :
    d.Keeps (d.volume.writeDirectoryEntry writable file size firstCluster) fun _ => True := by
  refine (keeps_directoryRead writable hv _ hentry).bind fun sector _ => ?_
  cases sector with
  | none => exact .pure trivial
  | some sector => exact keeps_directoryWrite writable hv _ hentry

variable {first : UInt32} (hfirst : first.toNat < d.volume.clusterCount.toNat + 2)

private theorem FatDevice.keeps_releaseChain (turns : Nat)
    (hcluster : cluster.toNat < d.volume.clusterCount.toNat + 2 ∨
      d.volume.clusterIsEnd cluster = true) :
    d.Keeps (d.volume.releaseChain writable turns cluster) fun _ => True := by
  induction turns generalizing cluster with
  | zero => exact .pure trivial
  | succ turns ih =>
    unfold FatVolume.releaseChain
    split_ifs with hstop
    · exact .pure trivial
    obtain ⟨hlow, hend⟩ := not_or.mp hstop
    have hcluster := hcluster.resolve_right hend
    have hone : cluster ≠ 1 := by
      rintro rfl
      exact hlow (by decide)
    refine (keeps_entryRead hv hcluster).bind fun answer hanswer => ?_
    cases answer with
    | none => exact .pure trivial
    | some next =>
      exact .bind_ite (keeps_entryWrite writable hv hcluster (Or.inl (Or.inl rfl)))
        (ih ((hanswer next rfl hone).imp_left FatVolume.Link.lt)) (.pure trivial)

include hfirst

private theorem FatDevice.keeps_readLoop (turns : Nat) (offset : UInt64) (left : Nat)
    (moved : List UInt8) :
    d.Keeps (d.volume.readLoop writable first turns offset left moved) fun _ => True := by
  induction turns generalizing offset left moved with
  | zero => exact .pure trivial
  | succ turns ih =>
    unfold FatVolume.readLoop
    split_ifs
    · exact .pure trivial
    refine (keeps_clusterAt writable hv hfirst offset false).bind fun cluster hlink => ?_
    split_ifs with hzero
    · exact .pure trivial
    refine (keeps_read hv (hv.has_data hlink hzero offset)).bind fun staging _ => ?_
    cases staging with
    | none => exact .pure trivial
    | some staging => exact ih _ _ _

private theorem FatDevice.keeps_cutChain (turns : Nat) (length : UInt64) :
    d.Keeps (d.volume.cutChain writable turns first length) fun _ => True := by
  refine (keeps_clusterAt writable hv hfirst _ false).bind fun last hlink => ?_
  split_ifs
  · exact .pure trivial
  refine (keeps_entryRead hv hlink.lt).bind fun answer hanswer => ?_
  cases answer with
  | none => exact .pure trivial
  | some next =>
    refine .bind_ite (keeps_entryWrite writable hv hlink.lt (Or.inr rfl)) ?_ (.pure trivial)
    split_ifs
    · exact .pure trivial
    · exact keeps_releaseChain writable hv turns
        ((hanswer next rfl hlink.ne_one).imp_left FatVolume.Link.lt)

private theorem FatDevice.keeps_writeLoop (bytes : Nat → UInt8) (turns : Nat) (offset : UInt64)
    (left moved : Nat) :
    d.Keeps (d.volume.writeLoop writable first bytes turns offset left moved) fun _ => True := by
  induction turns generalizing offset left moved with
  | zero => exact .pure trivial
  | succ turns ih =>
    unfold FatVolume.writeLoop
    split_ifs
    · exact .pure trivial
    refine (keeps_clusterAt writable hv hfirst offset true).bind fun cluster hlink => ?_
    split_ifs with hzero
    · exact .pure trivial
    have hhas := hv.has_data hlink hzero offset
    refine .bind_ite ?_ (ih _ _ _) (.pure trivial)
    unfold writeChunk
    dsimp only
    split_ifs
    · refine (keeps_read hv hhas).bind fun staging _ => ?_
      cases staging with
      | none => exact .pure trivial
      | some staging => exact keeps_write writable hv hhas (hv.behind_data _)
    · exact keeps_write writable hv hhas (hv.behind_data _)

end File

end Keeps

/-! ## Calls -/

/-- A read, write or truncation of a file, or a request that is made of the partition directly, with
    what the sectors hold after a write or a discard. -/
inductive PartitionCall
  | nodeRead (file : FatFile) (offset : UInt64) (size : Nat)
  | nodeWrite (file : FatFile) (offset : UInt64) (size : Nat) (bytes : Nat → UInt8)
  | nodeTruncate (turns : Nat) (file : FatFile) (length : UInt64)
  | direct (direction : Direction) (lba : UInt64) (count : UInt32) (data : Nat → UInt8)

section Calls

variable (d : FatDevice)

def FatDevice.call (s : FatRun) : PartitionCall → FatRun
  | .nodeRead file offset size => (d.run (d.volume.nodeRead d.device.writable file offset size) s).2
  | .nodeWrite file offset size bytes =>
    (d.run (d.volume.nodeWrite d.device.writable file offset size bytes) s).2
  | .nodeTruncate turns file length =>
    (d.run (d.volume.nodeTruncate d.device.writable turns file length) s).2
  | .direct direction lba count data =>
    match d.device.blockDevice direction lba count with
    | none => s
    | some r =>
      { disk := if direction = .read ∨
        d.fails s.requests.length then s.disk else store r data s.disk
        requests := s.requests ++ [r] }

/-- The numbers that a file has from its directory entry are those of clusters, or none. -/
def FatDevice.FileFits (file : FatFile) : Prop :=
  file.firstCluster.toNat < d.volume.clusterCount.toNat + 2 ∧
    file.entryCluster.toNat < d.volume.clusterCount.toNat + 2

/-- The file has such numbers. The end of a direct request does not come round, and it does not
    change the table. -/
def FatDevice.CallFits : PartitionCall → Prop
  | .nodeRead file _ _ => d.FileFits file
  | .nodeWrite file _ _ _ => d.FileFits file
  | .nodeTruncate _ file _ => d.FileFits file
  | .direct direction lba count _ => d.device.DirectFits direction lba count ∧
    (direction = .read ∨ lba.toNat + count.toNat ≤ d.volume.fatStart.toNat ∨
      d.volume.fatStart.toNat + d.volume.fatSectors.toNat ≤ lba.toNat)

variable {d} {file : FatFile} (writable : Bool) (hv : d.volume.Laid d.device.sectors.toNat)

include hv

section File

variable (hfile : d.FileFits file)

include hfile

private theorem FatDevice.keeps_nodeRead (offset : UInt64) (size : Nat) :
    d.Keeps (d.volume.nodeRead writable file offset size) fun _ => True := by
  unfold FatVolume.nodeRead
  split_ifs
  · exact .pure trivial
  · exact keeps_readLoop writable hv hfile.1 _ _ _ _

private theorem FatDevice.keeps_nodeTruncate (turns : Nat) (length : UInt64) :
    d.Keeps (d.volume.nodeTruncate writable turns file length) fun _ => True := by
  have hentry := keeps_writeDirectoryEntry writable hv hfile.2
  unfold FatVolume.nodeTruncate
  split_ifs
  · exact .pure trivial
  · exact .pure trivial
  · exact hentry _ _
  · exact .bind_ite (keeps_releaseChain writable hv turns (Or.inl hfile.1))
      (hentry _ _) (.pure trivial)
  · exact .bind_ite (keeps_cutChain writable hv hfile.1 turns length) (hentry _ _) (.pure trivial)

private theorem FatDevice.keeps_nodeWrite (offset : UInt64) (size : Nat) (bytes : Nat → UInt8) :
    d.Keeps (d.volume.nodeWrite writable file offset size bytes) fun _ => True := by
  have hfirst : d.Keeps (d.volume.firstFor writable file size) fun first =>
      ∀ cluster ∈ first, cluster.toNat < d.volume.clusterCount.toNat + 2 := by
    unfold FatVolume.firstFor
    split_ifs
    · refine (keeps_allocateCluster writable hv).bind fun cluster hlink => ?_
      split_ifs
      · exact .pure nofun
      · exact .pure fun _ hmem => Option.some.inj hmem ▸ hlink.lt
    · exact .pure fun _ hmem => Option.some.inj hmem ▸ hfile.1
  unfold FatVolume.nodeWrite
  split_ifs
  · exact .pure trivial
  refine hfirst.bind fun first hlt => ?_
  cases first with
  | none => exact .pure trivial
  | some first =>
    refine (keeps_writeLoop writable hv (hlt first rfl) bytes _ _ _ _).bind fun written _ => ?_
    cases written with
    | none => exact .pure trivial
    | some written =>
      exact .bind_ite (keeps_writeDirectoryEntry writable hv hfile.2 _ _)
        (.pure trivial) (.pure trivial)

end File

/-- A direct request that fits does not change the table. -/
theorem FatDevice.Sound.direct {s : FatRun} (hs : d.Sound s) {direction : Direction}
    {lba : UInt64} {count : UInt32}
    {data : Nat → UInt8} (hfits : d.CallFits (.direct direction lba count data)) :
    d.Sound (d.call s (.direct direction lba count data)) := by
  have hinside := (d.device.inside_blockDevice_iff direction lba count).mpr hfits.1
  unfold FatDevice.call
  dsimp only
  cases hr : d.device.blockDevice direction lba count with
  | none => exact hs
  | some r =>
    refine ⟨?_, fun r' hr' => ?_⟩
    · dsimp only
      split_ifs with hkept
      · exact hs.tidy
      refine hs.tidy.congr hv fun i hi => ?_
      obtain ⟨hlow, hhigh⟩ := hinside r (hr ▸ rfl)
      have hapart := hfits.2.resolve_left fun h => hkept (Or.inl h)
      have hrequest : r = d.device.request direction lba count := by
        unfold PartitionDevice.blockDevice at hr
        split_ifs at hr
        exact (Option.some.inj hr).symm
      have hlba : r.lba.toNat = (d.device.start.toNat + lba.toNat) % 2 ^ 64 := by
        rw [hrequest]
        exact UInt64.toNat_add ..
      have hcount : r.count = count := by rw [hrequest]; rfl
      have hdisk := d.device.onDisk
      have hword := lba.toNat_lt
      unfold FatDevice.table store
      exact if_neg (by rw [hcount]; omega)
    · rcases List.mem_append.mp hr' with hr' | hr'
      · exact hs.inside r' hr'
      · exact List.mem_singleton.mp hr' ▸ hinside r (hr ▸ rfl)

private theorem FatDevice.Sound.call {s : FatRun} (hs : d.Sound s) {call : PartitionCall}
    (hfits : d.CallFits call) :
    d.Sound (d.call s call) := by
  cases call with
  | nodeRead file offset size =>
    rw [FatDevice.call]
    exact (keeps_nodeRead _ hv hfits offset size s hs).1
  | nodeWrite file offset size bytes =>
    rw [FatDevice.call]
    exact (keeps_nodeWrite _ hv hfits offset size bytes s hs).1
  | nodeTruncate turns file length =>
    rw [FatDevice.call]
    exact (keeps_nodeTruncate _ hv hfits turns length s hs).1
  | direct direction lba count data => exact hs.direct hv hfits

end Calls

/-! ## A small volume -/

/-- A volume of 40 clusters of one sector, in a partition of 100 sectors behind sector 1000. -/
def smallVolume : FatDevice :=
  { device := {
      start := 1000, sectors := 100, onDisk := by decide, writable := true, discards := false }
    volume := {
      sectorsPerCluster := 1, clusterBytes := 512, fatStart := 1, fatSectors := 1, fatCount := 2
      rootStart := 3, rootSectors := 1, dataStart := 4, clusterCount := 40
      rootCluster := 0, bits := 12 }
    fails := fun _ => false }

/-- The last cluster of the small volume. -/
theorem smallVolume_confines : smallVolume.UseFits (.data 41 0) := by
  refine FatVolume.Sized.confines ⟨rfl, by decide, fun c h => ?_, by decide, by decide⟩
    ⟨by decide, by decide, by decide⟩
  simp [FatVolume.entryOffset, smallVolume] at *
  exact Nat.mod_lt_of_lt (by omega)

/-- A file of so many bytes that starts with this cluster, as its entry in the root directory
    says. -/
def smallFile (firstCluster : UInt32) (length : UInt64) : FatFile :=
  { firstCluster, entryCluster := 0, entryOffset := 0, length }

/-- The disk of the small volume, where the cluster 3 comes behind the cluster 2. -/
def smallDisk (sector place : Nat) : UInt8 :=
  if sector = 1001 then match place with
    | 3 => 0x03
    | 4 => 0xF0
    | 5 => 0xFF
    | _ => 0
  else 0

instance (d : PartitionDevice) (r : DiskRequest) :
    Decidable (d.Inside r) :=
  inferInstanceAs (Decidable (_ ∧ _))

private theorem forall_smallCluster {P : UInt32 → Prop} (h : ∀ n < 42, P (.ofNat n))
    (cluster : UInt32) (hcluster : cluster.toNat < 42) : P cluster := by
  simpa using h cluster.toNat hcluster

private theorem smallVolume_laid : smallVolume.volume.Laid 100 where
  bytes := rfl
  table := by decide
  entries := forall_smallCluster (by decide +kernel)
  root := by decide
  data := by decide
  wide := Or.inl rfl
  numbers := by
    have hnot : ∀ n < 42, smallVolume.volume.clusterIsEnd (.ofNat n) = false := by decide +kernel
    intro cluster hcluster
    exact ⟨@forall_smallCluster (smallVolume.volume.clusterIsEnd · = false) hnot cluster hcluster,
      Nat.lt_trans hcluster (by decide)⟩
  whole := forall_smallCluster (by decide +kernel)
  clusterBytes := by decide
  copies := by decide
  beforeRoot := fun _ => by decide
  beforeData := by decide

private theorem smallDisk_tidy : smallVolume.Tidy smallDisk := by
  have hgood : ∀ n < 42, UInt32.ofNat n ≠ 1 → (smallVolume.entry smallDisk (.ofNat n) = 0 ∨
      2 ≤ (smallVolume.entry smallDisk (.ofNat n)).toNat ∧
        (smallVolume.entry smallDisk (.ofNat n)).toNat < 42) ∨
      smallVolume.volume.clusterIsEnd (smallVolume.entry smallDisk (.ofNat n)) = true := by
    decide +kernel
  exact forall_smallCluster hgood

end Tunix.Fat
