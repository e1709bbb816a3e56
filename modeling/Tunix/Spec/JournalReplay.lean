import Tunix.Spec.JournalOpen
import Tunix.Spec.JournalRecover
import Mathlib.Data.List.NodupEquivFin

/-!
# A logged transaction is replayed

The main result, `restores_iff`, says when a recovery from the log that `log_transaction` has
written puts every block back: exactly when the sequence number is not zero, which is not a number
that a journal is opened with, and no logged block has to be escaped in a journal with per-block
checksums. The checksum of a tag is taken of the block and checked against its image, so an escaped
block is skipped.

The theorem also covers journals so long that the 32-bit arithmetic on log positions overflows;
there, the positions of a transaction may come round and the log is overwritten by itself.
-/

namespace Tunix.Jbd2

open Bytes Function List

variable {j : Layout} {position : Nat} {blocks : List Block} {ws : List Entry}
    {entries : List Entry} (csum : Bool)

/-! ## Log positions -/

/-- The first `n` positions of the log, in the order they are written. -/
def positions (j : Layout) (n : Nat) : List Nat := (range n).map fun i => (step j)^[i] j.first

/-- The positions differ exactly if the walk does not come back. -/
theorem positions_nodup_iff {n : Nat} : (positions j n).Nodup ↔
      ∀ i k, i < k → k < n → (step j)^[i] j.first ≠ (step j)^[k] j.first := by
  unfold positions
  rw [nodup_map_iff_inj_on nodup_range]
  simp only [mem_range]
  constructor
  · exact fun h i k hik hk heq => absurd (h i (by omega) k hk heq) (by omega)
  · intro h i hi k hk heq
    rcases Nat.lt_trichotomy i k with hlt | rfl | hgt
    · exact absurd heq (h i k hlt hk)
    · rfl
    · exact absurd heq.symm (h k i hgt hi)

private theorem step_cases (j : Layout) (position : Nat) : step j position = j.first ∨
      step j position = (position + 1) % 2 ^ 32 ∧ (position + 1) % 2 ^ 32 < j.last := by
  unfold step
  dsimp only
  split_ifs with h
  · exact Or.inl rfl
  · exact Or.inr ⟨rfl, by omega⟩

/-- The walk stays below the end, unless it is at the start. -/
theorem iterate_step_cases (j : Layout) (i : Nat) :
    (step j)^[i] j.first = j.first ∨ (step j)^[i] j.first < j.last := by
  cases i with
  | zero => exact Or.inl rfl
  | succ i =>
    rw [iterate_succ_apply']
    rcases step_cases j ((step j)^[i] j.first) with h | ⟨h, hlt⟩
    · exact Or.inl h
    · exact Or.inr (h ▸ hlt)

/-- The log does not come to the superblock. -/
theorem iterate_step_pos (h : Opened j) (hfirst : j.first < j.maxlen) (i : Nat) :
    0 < (step j)^[i] j.first := by
  have hpos := h.first_pos
  have hlast := h.last_le
  have hmax := h.maxlen_lt
  cases i with
  | zero => exact hpos
  | succ i =>
    rw [iterate_succ_apply']
    have hi := iterate_step_cases j i
    rcases step_cases j ((step j)^[i] j.first) with hstep | ⟨hstep, -⟩
    · omega
    · rw [hstep, Nat.mod_eq_of_lt (by omega)]
      omega

/-- If two positions of the log coincide, the log has come round to its first block. -/
theorem iterate_step_period (h : Opened j) {i k : Nat} (hik : i < k)
    (heq : (step j)^[i] j.first = (step j)^[k] j.first) : (step j)^[k - i] j.first = j.first := by
  induction i generalizing k with
  | zero => exact heq.symm
  | succ i ih =>
    obtain ⟨k, rfl⟩ : ∃ m, k = m + 1 := ⟨k - 1, by omega⟩
    have hlt (n : Nat) : (step j)^[n] j.first < 2 ^ 32 := by
      have hl := h.last_le
      have hm := h.maxlen_lt
      have hf := h.first_lt
      rcases iterate_step_cases j n with hn | hn <;> omega
    have hround (hw : (step j)^[i + 1] j.first = j.first) :
        (step j)^[k + 1 - (i + 1)] j.first = j.first := by
      have hsplit : k + 1 = (k + 1 - (i + 1)) + (i + 1) := by omega
      rw [hw, hsplit, iterate_add_apply, hw] at heq
      exact heq.symm
    rcases step_cases j ((step j)^[i] j.first) with hw | ⟨hw, -⟩
    · exact hround (by rw [iterate_succ_apply']; exact hw)
    rcases step_cases j ((step j)^[k] j.first) with hw' | ⟨hw', -⟩
    · exact hround (by rw [heq, iterate_succ_apply']; exact hw')
    -- both positions were reached by counting up, so their predecessors coincide
    rw [iterate_succ_apply', iterate_succ_apply', hw, hw'] at heq
    have hpre : (step j)^[i] j.first = (step j)^[k] j.first := by
      have h1 := hlt i
      have h2 := hlt k
      omega
    have := ih (by omega) hpre
    rwa [show k + 1 - (i + 1) = k - i by omega]

/-- Of `n` log writes from the first position on, the last ones from some `m` on go to distinct
    positions, starting again at the first; `m` is zero exactly if all positions are distinct. -/
theorem positions_wrap (h : Opened j) {n : Nat} (hn : 0 < n) :
    ∃ m < n, (step j)^[m] j.first = j.first ∧ (positions j (n - m)).Nodup ∧
      (m = 0 ↔ (positions j n).Nodup) := by
  by_cases hnd : (positions j n).Nodup
  · exact ⟨0, hn, rfl, by simpa using hnd, by simpa using hnd⟩
  rw [positions_nodup_iff] at hnd
  push Not at hnd
  obtain ⟨i, k, hik, hk, heq⟩ := hnd
  have hex : ∃ p, 0 < p ∧ (step j)^[p] j.first = j.first :=
    ⟨k - i, by omega, iterate_step_period h hik heq⟩
  classical
  -- `p` is the length of a round
  obtain ⟨hp, hround⟩ := Nat.find_spec hex
  have hmin := fun {q : Nat} => Nat.find_min hex (m := q)
  have hple : Nat.find hex ≤ k - i := Nat.find_min' hex ⟨by omega, iterate_step_period h hik heq⟩
  set p := Nat.find hex with hpdef
  have hrounds (q : Nat) : (step j)^[p * q] j.first = j.first := by
    rw [iterate_mul]
    exact iterate_fixed hround q
  have hdiv : p * ((n - 1) / p) ≤ n - 1 := Nat.mul_div_le _ _
  have hmod : (n - 1) % p < p := Nat.mod_lt _ hp
  have hsum := Nat.div_add_mod (n - 1) p
  have hpos : 0 < (n - 1) / p := Nat.div_pos (by omega) hp
  have hmpos : 0 < p * ((n - 1) / p) := Nat.mul_pos hp hpos
  refine ⟨p * ((n - 1) / p), by omega, hrounds _, ?_, ?_⟩
  · rw [positions_nodup_iff]
    intro i' k' hik' hk' heq'
    exact hmin (by omega) ⟨by omega, iterate_step_period h hik' heq'⟩
  · constructor
    · intro h0; omega
    · intro hnodup
      exact absurd heq (positions_nodup_iff.mp hnodup i k hik hk)

/-- There are at most `last + 1` distinct positions. -/
theorem positions_le {n : Nat} (h : (positions j n).Nodup) : n ≤ j.last + 1 := by
  have hsub : positions j n ⊆ j.first :: range j.last := by
    intro p hp
    simp only [positions, mem_map] at hp
    obtain ⟨i, -, rfl⟩ := hp
    rcases iterate_step_cases j i with hi | hi
    · rw [hi]; exact mem_cons_self
    · exact mem_cons_of_mem _ (mem_range.mpr hi)
  have hlen := (subperm_of_subset h hsub).length_le
  simpa [positions] using hlen

/-! ## The log after the writes -/

/-- The blocks of a journal lie on different device blocks. -/
def LogInjective (j : Layout) : Prop :=
  ∀ p q disk, logLocate j p = some disk → logLocate j q = some disk → p = q

/-- Each write goes to the device block of its position. -/
theorem Placed.located (h : Placed j position blocks ws) {w : Entry} (hw : w ∈ ws) :
    ∃ i < blocks.length, logLocate j ((step j)^[i] position) = some w.1 := by
  induction h with
  | nil => exact absurd hw not_mem_nil
  | cons hloc _ ih =>
    rcases mem_cons.mp hw with rfl | hw
    · exact ⟨0, by simp, hloc⟩
    · obtain ⟨i, hi, hwi⟩ := ih hw
      exact ⟨i + 1, by simpa using hi, hwi⟩

/-- Distinct positions are distinct device blocks. -/
theorem Placed.nodup (hinj : LogInjective j) (h : Placed j position blocks ws)
    (hpos : ∀ i k, i < k → k < blocks.length → (step j)^[i] position ≠ (step j)^[k] position) :
    (ws.map Prod.fst).Nodup := by
  induction h with
  | nil => exact nodup_nil
  | @cons position disk block blocks ws hloc hrest ih =>
    rw [map_cons, nodup_cons]
    constructor
    · intro hmem
      obtain ⟨w, hw, hdisk⟩ := mem_map.mp hmem
      obtain ⟨i, hi, hwi⟩ := hrest.located hw
      rw [hdisk] at hwi
      exact hpos 0 (i + 1) (by omega) (by simpa using hi) (hinj _ _ disk hloc hwi)
    · refine ih fun i k hik hk => ?_
      exact hpos (i + 1) (k + 1) (by omega) (by simpa using hk)

/-- After writes to distinct device blocks the log holds what was written. -/
theorem Placed.holds (h : Placed j position blocks ws) (hnd : (ws.map Prod.fst).Nodup)
    (d : UInt64 → Block) :
    Holds j (Disk.apply ws d) position blocks := by
  induction h generalizing d with
  | nil => trivial
  | @cons position disk block blocks ws hloc hrest ih =>
    refine ⟨?_, ih (nodup_cons.mp hnd).2 _⟩
    have hread := Disk.apply_of_mem (d := d) hnd (mem_cons_self (a := (disk, block)) (l := ws))
    simp only [logRead, hloc, Option.map_some, hread]

private theorem batchesBlocks_cons (j : Layout) (sequence : UInt32) (batch : List Entry)
    (batches : List (List Entry)) :
    batchesBlocks j sequence (batch :: batches) =
      batchBlocks j sequence batch ++ batchesBlocks j sequence batches := flatMap_cons

/-- A log cut off at the front starts with a whole batch, or with the image of a data block. -/
theorem drop_batchesBlocks (j : Layout) (sequence : UInt32) (batches : List (List Entry)) {i : Nat}
    (hi : i ≤ (batchesBlocks j sequence batches).length) :
    (∃ done rest, batches = done ++ rest ∧
      (batchesBlocks j sequence batches).drop i = batchesBlocks j sequence rest ∧
        (done = [] → i = 0)) ∨
      ∃ data blocks, (batchesBlocks j sequence batches).drop i = escaped data :: blocks := by
  -- The walk comes back either to a descriptor or into the data of a batch.
  induction batches generalizing i with
  | nil =>
    simp only [batchesBlocks, flatMap_nil, length_nil] at hi
    exact Or.inl ⟨[], [], rfl, by simp [batchesBlocks], fun _ => by omega⟩
  | cons batch batches ih =>
    have hsplit := batchesBlocks_cons j sequence batch batches
    have hlen := batchBlocks_length j sequence batch
    rw [hsplit, length_append, hlen] at hi
    cases i with
    | zero => exact Or.inl ⟨[], batch :: batches, rfl, by simp, fun _ => rfl⟩
    | succ i =>
      by_cases hin : i < batch.length
      · -- inside the data blocks of this batch
        have himg : (images batch).drop i =
            escaped (batch[i]).2 :: (images batch).drop (i + 1) := by
          rw [drop_eq_getElem_cons (by simpa [images] using hin)]
          simp [images]
        refine Or.inr
          ⟨(batch[i]).2, (images batch).drop (i + 1) ++ batchesBlocks j sequence batches, ?_⟩
        rw [hsplit, drop_append_of_le_length (by omega),
          show batchBlocks j sequence batch = descriptor j sequence batch :: images batch from rfl,
          drop_succ_cons, himg, cons_append]
      · have hdrop : (batchesBlocks j sequence (batch :: batches)).drop (i + 1) =
            (batchesBlocks j sequence batches).drop (i - batch.length) := by
          rw [hsplit, drop_append, drop_eq_nil_of_le (by omega), hlen, nil_append,
            Nat.add_sub_add_right]
        rcases ih (i := i - batch.length) (by omega) with ⟨done, rest, rfl, hd, -⟩ | ⟨data, bs, hd⟩
        · exact Or.inl ⟨batch :: done, rest, rfl, hdrop.trans hd, fun hnil => by cases hnil⟩
        · exact Or.inr ⟨data, bs, hdrop.trans hd⟩

/-- The descriptors and data blocks of a transaction: headers of its own sequence, or no headers. -/
theorem mem_logBlocks (hbs : 1024 ≤ j.blockSize) {sequence : UInt32} {block : Block}
    (h : block ∈ logBlocks j sequence entries) :
    Header block descriptorBlockType sequence ∨ loadBe32 block 0 ≠ magic := by
  simp only [logBlocks, batchesBlocks, mem_flatMap] at h
  obtain ⟨batch, hbatch, hmem⟩ := h
  rcases mem_cons.mp hmem with rfl | hmem
  · exact Or.inl (descriptor_header hbs (mem_splitBatches (tagsPerDescriptor_pos hbs) hbatch).2)
  · obtain ⟨e, -, rfl⟩ := mem_map.mp hmem
    exact Or.inr (escaped_magic e.2)

/-- Each write is one of the blocks. -/
theorem Placed.mem_blocks (h : Placed j position blocks ws) {w : Entry} (hw : w ∈ ws) :
    w.2 ∈ blocks := by
  induction h with
  | nil => exact absurd hw not_mem_nil
  | cons _ _ ih =>
    rcases mem_cons.mp hw with rfl | hw
    · exact mem_cons_self
    · exact mem_cons_of_mem _ (ih hw)

/-- The entries whose images match are those that are not escaped, if there are checksums. -/
theorem intact_iff (h : Opened j) (sequence : UInt32) (e : Entry) :
    intact j sequence e = true ↔ (hasCsum j = true → needsEscape e.2 = false) := by
  have hle := h.blockSize_le
  have hge := h.blockSize_ge
  unfold intact
  rw [Bool.or_eq_true, decide_eq_true_eq, blockSum_escaped_iff _ _ (by omega) hle]
  cases hasCsum j <;> simp

/-! ## Write and replay -/

/-- Recovery writes to the home of every entry exactly the contents that were logged. -/
def Restores (s : State) (entries : List Entry) : Prop :=
  ∃ s' new, journalRecover s = (true, s') ∧ s'.dev.history = new ++ s.dev.history ∧
    ∀ e ∈ entries, ∀ data, Disk.Event.write e.1 data ∈ new ↔ data = e.2

private theorem restores_iff_of_recoversWith {s : State} (h : RecoversWith s ws)
    (hoff : OffLog s.journal entries) :
    Restores s entries ↔ ∀ e ∈ entries, ∀ data, (e.1, data) ∈ ws ↔ data = e.2 := by
  obtain ⟨s', home, sb, replay, hrec, hhome, -, hhist⟩ := h
  rw [Disk.issue_eq_append, ← append_assoc] at hhist
  -- the superblock is not the home of an entry
  have hmem (e : Entry) (he : e ∈ entries) (data : Block) :
      Disk.Event.write e.1 data ∈ recoveryTail home sb replay ++ Disk.issue ws [] ↔
        (e.1, data) ∈ ws := by
    have hne : e.1 ≠ home := fun heq => hoff e he 0 (heq ▸ hhome)
    cases replay <;> simp [recoveryTail, Disk.issue, hne]
  constructor
  · rintro ⟨s'', new, hrec', hhist', hall⟩ e he data
    rw [hrec, Prod.mk.injEq] at hrec'
    rw [← hrec'.2, hhist] at hhist'
    rw [← hall e he data, ← append_cancel_right hhist', hmem e he]
  · exact fun hall => ⟨s', _, hrec, hhist, fun e he data => (hmem e he data).trans (hall e he data)⟩

/-- `log_transaction` has written a transaction completely. The journal has been opened and begun,
    so that the superblock on the device says where its log begins, and its blocks lie on different
    device blocks, none of them the home of a logged block; the homes are distinct and fit into the
    tags; and the device holds nothing of a later transaction, nor of a fast commit. -/
structure Logged (s s' : State) (home : UInt64) (entries : List Entry) (now : UInt64) : Prop where
  geometry : Geometry s.journal
  locateHome : logLocate s.journal 0 = some home
  superblock : Superblock (s.dev.read home) s.journal (.ofNat s.journal.first) s.journal.sequence
  first_lt : s.journal.first < s.journal.maxlen
  injective : LogInjective s.journal
  gather : s.journal.gather = []
  offLog : OffLog s.journal entries
  distinct : (entries.map Prod.fst).Nodup
  representable : ∀ e ∈ entries, Representable s.journal e.1
  logged : logTransaction s entries now = (true, s')
  quiet : ∀ i block,
    logRead s.journal s'.dev.read ((step s.journal)^[i] s.journal.first) = some block →
      loadBe32 block 0 ≠ magic ∨ loadBe32 block 8 ≠ s.journal.sequence + 1
  noFastCommit : ∀ next,
    checkFastCommit (reopened (journalAt s.journal s.journal.sequence) s'.dev.read) next = false

/-- The machine comes up again, and the journal is opened. -/
def reboot (s s' : State) : State := reopened (journalAt s.journal s.journal.sequence) s'.dev.read

/-- The number of log blocks of a transaction: descriptors, data blocks and the commit block. -/
def transactionLength (j : Layout) (sequence : UInt32) (entries : List Entry) : Nat :=
  (logBlocks j sequence entries).length + 1

/-- Each batch takes a block at least. -/
theorem batchesBlocks_length_ge (j : Layout) (sequence : UInt32) (batches : List (List Entry)) :
    batches.length ≤ (batchesBlocks j sequence batches).length := by
  induction batches with
  | nil => simp
  | cons batch batches ih =>
    rw [batchesBlocks_cons, length_append, batchBlocks_length, length_cons]
    omega

/-- What a transaction that was written has done to the device. -/
theorem logTransaction_done {s s' : State} {now : UInt64} (hgather : s.journal.gather = [])
    (hlog : logTransaction s entries now = (true, s')) :
    ∃ ws disk, Plan s.journal s.journal.sequence entries ws disk ∧
      s'.dev.read = Disk.apply
        (ws ++ [(disk, commitOf s.journal s.journal.sequence entries now)]) s.dev.read := by
  have hok : (logTransaction s entries now).1 = true := by rw [hlog]
  obtain ⟨ws, disk, hplan⟩ := plan_of_logTransaction hok
  obtain ⟨hruns, -⟩ := logTransaction_runs hplan hgather now
  have hread := read_of_runs hruns hok
  rw [hlog] at hread
  exact ⟨ws, disk, hplan, by simpa using hread⟩

/-- A transaction leaves nothing of the next one in the log if there was nothing of it before. -/
theorem logTransaction_quiet {s s' : State} {now : UInt64}
    (hbs : 1024 ≤ s.journal.blockSize) (hgather : s.journal.gather = [])
    (hlog : logTransaction s entries now = (true, s'))
    (hquiet : ∀ i block,
      logRead s.journal s.dev.read ((step s.journal)^[i] s.journal.first) = some block →
        loadBe32 block 0 ≠ magic ∨ loadBe32 block 8 ≠ s.journal.sequence + 1)
    (i : Nat) (block : Block)
    (hread : logRead s.journal s'.dev.read ((step s.journal)^[i] s.journal.first) = some block) :
    loadBe32 block 0 ≠ magic ∨ loadBe32 block 8 ≠ s.journal.sequence + 1 := by
  obtain ⟨ws, disk, hplan, hdev⟩ := logTransaction_done hgather hlog
  obtain ⟨addr, hloc, rfl⟩ := Option.map_eq_some_iff.mp hread
  have hheader : ∀ {type block}, Header block type s.journal.sequence →
      loadBe32 block 8 ≠ s.journal.sequence + 1 := fun hhdr => by rw [hhdr.sequence]; simp
  rw [hdev]
  rcases Disk.apply_cases (ws ++ [(disk, commitOf s.journal s.journal.sequence entries now)])
    s.dev.read addr with hold | hnew
  · rw [hold]
    exact hquiet i _ (by simp [logRead, hloc])
  · -- a block of this transaction
    rcases mem_append.mp hnew with hmem | hmem
    · exact (mem_logBlocks hbs (hplan.placed.mem_blocks hmem)).symm.imp_right hheader
    · rw [(Prod.mk.inj (mem_singleton.mp hmem)).2]
      exact Or.inr (hheader (commitBlock_header ..))

section Logged

variable {s s' : State} {home : UInt64} {now : UInt64} (h : Logged s s' home entries now)

include h

/-- The journal is one that was opened. -/
theorem Logged.opened : Opened s.journal := h.superblock.opened h.geometry

/-- The superblock is not a block of the log, so the journal opens again as it was. -/
theorem Logged.journalOpen_eq : journalOpen s.journal.map s'.dev.read s.journal.blockSize =
    some (journalAt s.journal s.journal.sequence) := by
  obtain ⟨ws, disk, hplan, hread⟩ := logTransaction_done h.gather h.logged
  have hall : Placed s.journal s.journal.first
      (logBlocks s.journal s.journal.sequence entries ++
        [commitOf s.journal s.journal.sequence entries now])
      (ws ++ [(disk, commitOf s.journal s.journal.sequence entries now)]) :=
    placed_append.mpr ⟨ws, _, rfl, hplan.placed, .cons hplan.commit (.nil _)⟩
  have hsame : s'.dev.read home = s.dev.read home := by
    rw [hread]
    refine (Disk.apply_cases _ s.dev.read home).resolve_right fun hmem => ?_
    obtain ⟨i, -, hloc⟩ := hall.located hmem
    have hpos := iterate_step_pos h.opened h.first_lt i
    exact hpos.ne' (h.injective _ _ home hloc h.locateHome)
  exact journalOpen_superblock h.geometry h.locateHome (hsame ▸ h.superblock)

/-- Recovery starts where the transaction does. -/
theorem Logged.start_toNat : (recovering (reboot s s')).journal.start.toNat = s.journal.first :=
  Nat.mod_eq_of_lt h.opened.first_lt

/-- From some block on, the log holds what was written; from its first block if the positions of
    the transaction do not come round. -/
theorem Logged.holds : ∃ m ≤ (logBlocks s.journal s.journal.sequence entries).length,
      Holds s.journal s'.dev.read s.journal.first
        ((logBlocks s.journal s.journal.sequence entries).drop m ++
          [commitOf s.journal s.journal.sequence entries now]) ∧
      (positions s.journal
        (transactionLength s.journal s.journal.sequence entries - m)).Nodup ∧
      (m = 0 ↔ (positions s.journal
        (transactionLength s.journal s.journal.sequence entries)).Nodup) := by
  obtain ⟨ws, disk, hplan, hread⟩ := logTransaction_done h.gather h.logged
  obtain ⟨m, hm, hround, hnd, hiff⟩ := positions_wrap h.opened
    (Nat.succ_pos (logBlocks s.journal s.journal.sequence entries).length)
  have hm' : m ≤ (logBlocks s.journal s.journal.sequence entries).length := by omega
  refine ⟨m, hm', ?_, hnd, hiff⟩
  -- the writes from the `m`-th on go to distinct blocks and are the last ones
  have hall : Placed s.journal s.journal.first
      (logBlocks s.journal s.journal.sequence entries ++
        [commitOf s.journal s.journal.sequence entries now])
      (ws ++ [(disk, commitOf s.journal s.journal.sequence entries now)]) :=
    placed_append.mpr ⟨ws, _, rfl, hplan.placed, .cons hplan.commit (.nil _)⟩
  rw [← take_append_drop m (logBlocks s.journal s.journal.sequence entries), append_assoc] at hall
  obtain ⟨us, vs, hws, -, hvs⟩ := placed_append.mp hall
  rw [length_take, min_eq_left hm', hround] at hvs
  have hnodup : (vs.map Prod.fst).Nodup := by
    refine hvs.nodup h.injective fun i k hik hk => positions_nodup_iff.mp hnd i k hik ?_
    simp only [length_append, length_drop, length_singleton] at hk
    omega
  have hholds := hvs.holds hnodup (Disk.apply us s.dev.read)
  rwa [← Disk.apply_append, ← hws, ← hread] at hholds

/-- After the crash the journal is one that recovery can walk. -/
theorem Logged.recoverable : Recoverable (reboot s s') where
  start := by
    intro h0
    have hstart : (reboot s s').journal.start.toNat = s.journal.first := h.start_toNat
    rw [h0] at hstart
    exact absurd hstart.symm h.opened.first_pos.ne'
  answers := rfl
  noFastCommit := fun next _ => h.noFastCommit next
  home := ⟨home, h.locateHome⟩

/-- No block the walk can come to starts the next transaction. -/
theorem Logged.ends (i : Nat) : EndsLog s.journal s'.dev.read ((step s.journal)^[i] s.journal.first)
      (s.journal.sequence + 1) := by
  have hloc : ∃ disk, logLocate s.journal ((step s.journal)^[i] s.journal.first) = some disk := by
    rcases iterate_step_cases s.journal.toLayout i with hi | hi
    · obtain ⟨m, -, hholds, -⟩ := h.holds
      rw [hi]
      cases hl : logLocate s.journal s.journal.first with
      | some disk => exact ⟨disk, rfl⟩
      | none =>
        cases hb : (logBlocks s.journal s.journal.sequence entries).drop m ++
            [commitOf s.journal s.journal.sequence entries now] with
        | nil => simp at hb
        | cons block rest =>
          rw [hb] at hholds
          simp [Holds, logRead, hl] at hholds
    · exact h.opened.located _ (lt_of_lt_of_le hi h.opened.last_le)
  obtain ⟨disk, hdisk⟩ := hloc
  have hread : logRead s.journal s'.dev.read ((step s.journal)^[i] s.journal.first) =
      some (s'.dev.read disk) := by simp [logRead, hdisk]
  exact ⟨_, hread, h.quiet i _ hread⟩

/-- A log that does not begin with a block of the transaction's sequence number is empty to the
    walk. -/
theorem Logged.recoversWith_of_ends (hend : EndsLog s.journal s'.dev.read s.journal.first
    (reboot s s').journal.sequence) : RecoversWith (reboot s s') [] := by
  apply recoversWith_nothing h.recoverable
  unfold walkLog
  rw [h.start_toNat, walkBlocks_scan_end hend]
  rfl

/-- The number zero is not looked for. -/
theorem Logged.recoversWith_of_zero (hzero : s.journal.sequence = 0) :
    RecoversWith (reboot s s') [] := by
  have hone : (reboot s s').journal.sequence = 1 := if_pos hzero
  obtain ⟨m, -, hholds, -⟩ := h.holds
  have hother : ∀ block ∈ (logBlocks s.journal s.journal.sequence entries).drop m ++
      [commitOf s.journal s.journal.sequence entries now], loadBe32 block 0 ≠ magic ∨
        loadBe32 block 8 ≠ 1 := by
    have hheader : ∀ {type block}, Header block type s.journal.sequence → loadBe32 block 8 ≠ 1 := by
      intro type block hhdr
      rw [hhdr.sequence, hzero]
      decide
    intro block hblock
    rcases mem_append.mp hblock with hmem | hmem
    · exact (mem_logBlocks h.opened.blockSize_ge (mem_of_mem_drop hmem)).symm.imp_right hheader
    · rw [mem_singleton.mp hmem]
      exact Or.inr (hheader (commitBlock_header ..))
  apply h.recoversWith_of_ends
  rw [hone]
  cases hblocks : (logBlocks s.journal s.journal.sequence entries).drop m ++
      [commitOf s.journal s.journal.sequence entries now] with
  | nil => simp at hblocks
  | cons block rest =>
    rw [hblocks] at hholds hother
    exact ⟨block, hholds.1, hother block mem_cons_self⟩

/-- If the guard of the walk overflows to zero, nothing is replayed. -/
theorem Logged.recoversWith_of_guard (hguard : ¬s.journal.last + 1 < 2 ^ 32) :
    RecoversWith (reboot s s') [] := by
  have hlast := lt_of_le_of_lt h.opened.last_le h.opened.maxlen_lt
  have hzero : ((recovering (reboot s s')).journal.last + 1) % 2 ^ 32 = 0 := by
    show (s.journal.last + 1) % 2 ^ 32 = 0
    rw [show s.journal.last + 1 = 2 ^ 32 by omega]
    rfl
  apply recoversWith_nothing h.recoverable
  unfold walkLog
  rw [hzero]
  rfl

/-- A log whose first block is the image of a data block is empty to the walk. -/
theorem Logged.recoversWith_of_image {data : Block}
    (hholds : Holds s.journal s'.dev.read s.journal.first (escaped data :: blocks)) :
    RecoversWith (reboot s s') [] :=
  h.recoversWith_of_ends ⟨_, hholds.1, Or.inl (escaped_magic data)⟩

section Nonzero

variable (hseq : s.journal.sequence ≠ 0) (hguard : s.journal.last + 1 < 2 ^ 32)
include hseq hguard

/-- The log from a whole batch on is a transaction to the walk. -/
theorem Logged.holdsTransaction {done rest : List (List Entry)}
    (hsplit : batchesOf s.journal entries = done ++ rest)
    (hholds : Holds s.journal s'.dev.read s.journal.first
      (batchesBlocks s.journal s.journal.sequence rest ++
        [commitOf s.journal s.journal.sequence entries now]))
    (hnd : (positions s.journal
      ((batchesBlocks s.journal s.journal.sequence rest).length + 1)).Nodup) :
    HoldsTransaction (recovering (reboot s s')) rest
      (commitOf s.journal s.journal.sequence entries now) := by
  have hstart := h.start_toNat
  have hsame : (recovering (reboot s s')).journal.sequence = s.journal.sequence := if_neg hseq
  have hbs := h.opened.blockSize_ge
  have hsub : rest.flatten ⊆ entries := by
    rw [← batchesOf_flatten hbs entries, hsplit, flatten_append]
    exact subset_append_right _ _
  refine ⟨hbs, ?_, h.offLog.of_subset hsub, ?_, ?_, ?_, ?_⟩
  · exact fun b hb => batchesOf_valid hbs entries b (hsplit ▸ mem_append_right done hb)
  · rw [hstart, hsame]; exact hholds
  · rw [hsame]; exact commitBlock_header ..
  · rw [hstart, hsame]; exact h.ends _
  -- The positions are different, so the guard of the walk is not reached.
  · have hle := positions_le hnd
    have hge := batchesBlocks_length_ge s.journal s.journal.sequence rest
    show rest.length < (s.journal.last + 1) % 2 ^ 32
    rw [Nat.mod_eq_of_lt hguard]
    omega

/-- A log that was not overwritten is replayed, but for the blocks whose images do not match. -/
theorem Logged.recoversWith
    (hnd : (positions s.journal (transactionLength s.journal s.journal.sequence entries)).Nodup) :
    RecoversWith (reboot s s') (entries.filter (intact s.journal s.journal.sequence)) := by
  obtain ⟨m, -, hholds, -, hiff⟩ := h.holds
  rw [hiff.mpr hnd, drop_zero] at hholds
  have htx := h.holdsTransaction hseq hguard (nil_append _).symm hholds hnd
  have hsame : (reboot s s').journal.sequence = s.journal.sequence := if_neg hseq
  have hrec := recoversWith_transaction h.recoverable htx (by
    rw [batchesOf_flatten h.opened.blockSize_ge]
    exact h.representable) (by
    rw [hsame]
    exact commitValid_commitBlock ..)
  rwa [hsame, batchesOf_flatten h.opened.blockSize_ge] at hrec

/-- If the positions of the transaction came round, the first entry is lost. -/
theorem Logged.recoversWith_of_wrap (hne : entries ≠ [])
    (hwrap : ¬(positions s.journal
      (transactionLength s.journal s.journal.sequence entries)).Nodup) :
    ∃ ws, RecoversWith (reboot s s') ws ∧ ∃ e ∈ entries, ∀ data, (e.1, data) ∉ ws := by
  obtain ⟨m, hm, hholds, hnd, hiff⟩ := h.holds
  have hnothing : ∃ e ∈ entries, ∀ data, (e.1, data) ∉ ([] : List Entry) :=
    let ⟨e, he⟩ := exists_mem_of_ne_nil entries hne
    ⟨e, he, fun _ => not_mem_nil⟩
  rcases drop_batchesBlocks s.journal s.journal.sequence (batchesOf s.journal entries) hm with
    ⟨done, rest, hsplit, hdrop, hdone⟩ | ⟨data, blocks, hdrop⟩
  · -- the log starts with a later batch
    obtain ⟨batch, done, rfl⟩ :
        ∃ b d, done = b :: d := exists_cons_of_ne_nil fun h0 => hwrap (hiff.mp (hdone h0))
    have hlen : transactionLength s.journal s.journal.sequence entries - m =
        (batchesBlocks s.journal s.journal.sequence rest).length + 1 := by
      have hl := congrArg length hdrop
      rw [length_drop] at hl
      simp only [transactionLength, logBlocks] at hm ⊢
      omega
    rw [show (logBlocks s.journal s.journal.sequence entries).drop m = _ from hdrop] at hholds
    have htx := h.holdsTransaction hseq hguard hsplit hholds (hlen ▸ hnd)
    have hflat : entries = (batch :: done).flatten ++ rest.flatten := by
      rw [← flatten_append, ← hsplit, batchesOf_flatten h.opened.blockSize_ge]
    obtain ⟨e, he⟩ := exists_mem_of_ne_nil batch
      (batchesOf_valid h.opened.blockSize_ge entries batch
        (hsplit ▸ mem_append_left rest mem_cons_self)).nonempty
    have hedone : e ∈ (batch :: done).flatten := by
      exact mem_append_left _ he
    cases hcv : commitValid (reboot s s').journal
      (commitOf s.journal s.journal.sequence entries now)
        (sumBlocks (reboot s s').journal 0xFFFFFFFF
          (batchesBlocks (reboot s s').journal (reboot s s').journal.sequence rest)) with
    | false => exact ⟨[], recoversWith_invalid h.recoverable htx hcv, hnothing⟩
    | true =>
      have hrep : ∀ e ∈ rest.flatten, Representable (reboot s s').journal e.1 := fun e he =>
        h.representable e (hflat ▸ mem_append_right _ he)
      refine ⟨_, recoversWith_transaction h.recoverable htx hrep hcv, e,
        hflat ▸ mem_append_left _ hedone, fun data hmem => ?_⟩
      -- the homes are distinct, so no later batch writes to this one
      have hnodup := h.distinct
      rw [hflat, map_append, nodup_append] at hnodup
      exact hnodup.2.2 e.1 (mem_map_of_mem hedone) e.1
        (mem_map.mpr ⟨(e.1, data), mem_of_mem_filter hmem, rfl⟩) rfl
  · rw [show (logBlocks s.journal s.journal.sequence entries).drop m = _ from hdrop] at hholds
    exact ⟨[], h.recoversWith_of_image hholds, hnothing⟩

end Nonzero

private theorem Logged.restores_iff_writes (hrec : RecoversWith (reboot s s') ws) :
    Restores (reboot s s') entries ↔ ∀ e ∈ entries, ∀ data, (e.1, data) ∈ ws ↔ data = e.2 :=
  restores_iff_of_recoversWith hrec h.offLog

/-- A recovery that writes nothing restores a transaction only if it is empty. -/
theorem Logged.restores_nothing (hrec : RecoversWith (reboot s s') []) :
    Restores (reboot s s') entries ↔ entries = [] := by
  rw [h.restores_iff_writes hrec]
  constructor
  · intro hall
    exact eq_nil_iff_forall_not_mem.mpr fun e he => not_mem_nil ((hall e he e.2).mpr rfl)
  · rintro rfl
    exact fun e he => absurd he not_mem_nil

/-- A recovery that makes the writes of some of the entries restores all of them exactly if it
    leaves none out. -/
theorem Logged.restores_filter {p : Entry → Bool}
    (hrec : RecoversWith (reboot s s') (entries.filter p)) :
    Restores (reboot s s') entries ↔ ∀ e ∈ entries, p e = true := by
  rw [h.restores_iff_writes hrec]
  constructor
  · intro hall e he
    exact (mem_filter.mp ((hall e he e.2).mpr rfl)).2
  · intro hall e he data
    constructor
    · intro hmem
      exact congrArg Prod.snd
        (inj_on_of_nodup_map h.distinct (mem_of_mem_filter hmem) he rfl)
    · rintro rfl
      exact mem_filter.mpr ⟨he, hall e he⟩

end Logged

/-- **Write and replay.** After a transaction has been logged the journal opens again, and its
    recovery restores every block exactly if the sequence number is not zero, the transaction's log
    positions do not come round in 32 bits and no block is escaped in a journal with per-block
    checksums. -/
theorem restores_iff {s s' : State} {home : UInt64} {entries : List Entry} {now : UInt64}
    (h : Logged s s' home entries now) :
    ∃ r, journalOpen s.journal.map s'.dev.read s.journal.blockSize = some r ∧
      (Restores (reopened r s'.dev.read) entries ↔ (entries ≠ [] → s.journal.sequence ≠ 0 ∧
        s.journal.last + 1 < 2 ^ 32 ∧
        (positions s.journal (transactionLength s.journal s.journal.sequence entries)).Nodup ∧
        (hasCsum s.journal = true → ∀ e ∈ entries, needsEscape e.2 = false))) := by
  refine ⟨_, h.journalOpen_eq, ?_⟩
  change Restores (reboot s s') entries ↔ _
  -- The empty transaction is a commit block only, which restores nothing.
  by_cases hempty : entries = []
  · subst hempty
    refine iff_of_true ?_ fun hne => absurd rfl hne
    by_cases hseq : s.journal.sequence = 0
    · exact (h.restores_nothing (h.recoversWith_of_zero hseq)).mpr rfl
    by_cases hguard : s.journal.last + 1 < 2 ^ 32
    · exact (h.restores_filter (h.recoversWith hseq hguard (List.nodup_singleton _))).mpr nofun
    · exact (h.restores_nothing (h.recoversWith_of_guard hguard)).mpr rfl
  rw [imp_iff_right hempty]
  -- Opening makes the sequence 1 of a 0, and the log is then not recognised.
  by_cases hseq : s.journal.sequence = 0
  · rw [h.restores_nothing (h.recoversWith_of_zero hseq)]
    exact iff_of_false hempty fun hall => hall.1 hseq
  by_cases hguard : s.journal.last + 1 < 2 ^ 32
  swap
  · rw [h.restores_nothing (h.recoversWith_of_guard hguard)]
    exact iff_of_false hempty fun hall => hguard hall.2.1
  by_cases hnd :
    (positions s.journal (transactionLength s.journal s.journal.sequence entries)).Nodup
  · rw [h.restores_filter (h.recoversWith hseq hguard hnd)]
    simp only [intact_iff h.opened, hseq, hguard, hnd, ne_eq, not_false_eq_true, true_and]
    exact ⟨fun hall hcsum e he => hall e he hcsum, fun hall e he hcsum => hall hcsum e he⟩
  · -- the log overwrites itself
    obtain ⟨ws, hrec, e, he, hlost⟩ := h.recoversWith_of_wrap hseq hguard hempty hnd
    rw [h.restores_iff_writes hrec]
    exact iff_of_false (fun hall => hlost e.2 ((hall e he e.2).mpr rfl)) fun hall => hnd hall.2.2.1

/-! ## A small journal

A journal of eight blocks, with and without per-block checksums, and one block to log that starts
with the magic number. -/

def smallMap (index : Nat) : Option UInt64 :=
  if index < 8 then some (100 + UInt64.ofNat index) else none

/-- The superblock of the journal, without features. -/
def smallSuper : Block :=
  storeBe32 (storeBe32 (storeBe32 (storeBe32 (storeBe32 (putHeader zeros superblockV2 0)
    12 1024) 16 8) 20 1) 24 1) 28 1

def smallLayout (csum : Bool) : Layout where
  map := smallMap
  blockSize := 1024
  maxlen := 8
  first := 1
  last := 8
  compat := 0
  incompat := if csum then incompatCsumV3 else 0
  csumSeed := Crc.crc32c 0xFFFFFFFF (readUuid smallSuper) uuidBytes
  mapped := fun index => (smallMap index).getD 0
  mappedCount := 8

/-- A device with the journal at block 100 and nothing else. -/
def smallDevice (csum : Bool) (block : UInt64) : Block :=
  if block = 100 then updateSuperblock (smallLayout csum) smallSuper 1 1 else zeros

def smallState (csum : Bool) : State where
  journal := { journalAt (smallLayout csum) 1 with openForWrites := true }
  dev := { base := smallDevice csum, history := [], answers := [] }

def magicEntry : Entry := (500, storeBe32 zeros 0 magic)

/-- Where the blocks of the small journal are. -/
theorem smallLayout_locate {disk : UInt64} (h : logLocate (smallLayout csum) position = some disk) :
    position < 8 ∧ disk = 100 + UInt64.ofNat position := by
  unfold logLocate smallLayout smallMap at h
  by_cases hp : position < 8
  · simp only [hp, true_and, if_true, Option.getD_some] at h
    split_ifs at h <;> simp_all
  · simp [hp] at h

/-- The small journal has a geometry that is opened. -/
theorem smallLayout_geometry : Geometry (smallLayout csum) where
  blockSize := by simp [smallLayout, maxBlockSize]
  room := by simp [smallLayout]
  mapsAll := by cases csum <;> decide
  mapped := rfl
  mappedCount := rfl

/-- Its superblock. -/
theorem smallSuper_superblock : Superblock smallSuper (smallLayout false) 1 1 where
  magic := by decide
  type := Or.inr (by decide)
  blockSize := by decide
  features := by decide
  seed := rfl
  maxlen := by decide
  first := by decide
  last := by decide
  sequence := by decide
  start := by decide

private theorem smallLayout_superblock :
    Superblock (updateSuperblock (smallLayout csum) smallSuper 1 1) (smallLayout csum) 1 1 := by
  refine updateSuperblock_superblock smallSuper_superblock
    ⟨rfl, fun _ => ?_, fun hold => ?_, ?_⟩ 1 1
  · cases csum <;> decide
  · exact absurd (by decide) hold
  · cases csum <;> decide

/-- Its blocks are different blocks. -/
theorem smallLayout_injective : LogInjective (smallLayout csum) := by
  intro p q disk hp hq
  obtain ⟨hp8, hpd⟩ := smallLayout_locate csum hp
  obtain ⟨hq8, hqd⟩ := smallLayout_locate csum hq
  rw [hpd] at hqd
  interval_cases p <;> interval_cases q <;> first | rfl | exact absurd hqd (by decide)

private theorem smallState_logs : logTransaction (smallState csum) [magicEntry] 0 =
      (true, (logTransaction (smallState csum) [magicEntry] 0).2) := by
  cases csum <;> rfl

/-- The log of the small journal is blank before the transaction. -/
private theorem smallDevice_quiet (i : Nat) (block : Block)
    (hread : logRead (smallLayout csum) (smallDevice csum)
      ((step (smallLayout csum))^[i] 1) = some block) :
    loadBe32 block 0 ≠ magic := by
  have hpos : 0 < (step (smallLayout csum))^[i] 1 := iterate_step_pos
    ((smallLayout_superblock csum).opened (smallLayout_geometry csum))
      (show (1 : Nat) < 8 by decide) i
  obtain ⟨disk, hdisk, rfl⟩ := Option.map_eq_some_iff.mp hread
  obtain ⟨hp, rfl⟩ := smallLayout_locate csum hdisk
  have hne : 100 + UInt64.ofNat ((step (smallLayout csum))^[i] 1) ≠ 100 := by
    generalize (step (smallLayout csum))^[i] 1 = position at hp hpos
    interval_cases position <;> decide
  rw [smallDevice, if_neg hne]
  decide

private theorem smallState_logged :
    Logged (smallState csum) (logTransaction (smallState csum) [magicEntry] 0).2 100
      [magicEntry] 0 where
  geometry := smallLayout_geometry csum
  locateHome := rfl
  superblock := smallLayout_superblock csum
  first_lt := show (1 : Nat) < 8 by decide
  injective := smallLayout_injective csum
  gather := rfl
  offLog := by
    intro e he position hloc
    rw [mem_singleton.mp he] at hloc
    obtain ⟨hp, hd⟩ := smallLayout_locate csum hloc
    interval_cases position <;> exact absurd hd (by decide)
  distinct := nodup_singleton _
  representable := fun e he => by
    rw [mem_singleton.mp he]
    exact Or.inr (by decide)
  logged := smallState_logs csum
  quiet := logTransaction_quiet (show 1024 ≤ 1024 from le_rfl) rfl (smallState_logs csum)
    fun i block hread => Or.inl (smallDevice_quiet csum i block hread)
  noFastCommit := by cases csum <;> exact fun _ => rfl

/-- Without checksums, the escaped block comes back. -/
theorem smallState_restores :
    ∃ r, journalOpen smallMap
      (logTransaction (smallState false) [magicEntry] 0).2.dev.read 1024 = some r ∧
    Restores (reopened r (logTransaction (smallState false) [magicEntry] 0).2.dev.read)
      [magicEntry] := by
  obtain ⟨r, hopen, hiff⟩ := restores_iff (smallState_logged false)
  exact ⟨r, hopen, hiff.mpr fun _ => ⟨by decide, by decide, by decide, by decide⟩⟩

/-- With checksums, recovery skips the escaped block. -/
theorem smallState_csum_not_restores :
    ∃ s s' home entries now r, Logged s s' home entries now ∧
      entries.length ≤ journalCapacity s.journal ∧
      s.journal.sequence ≠ 0 ∧ hasCsumV3 s.journal = true ∧
      journalOpen s.journal.map s'.dev.read s.journal.blockSize = some r ∧
      ¬Restores (reopened r s'.dev.read) entries := by
  have h := smallState_logged true
  refine ⟨_, _, _, _, _, _, h, by decide, by decide, by decide, h.journalOpen_eq,
    fun hrestores => ?_⟩
  have hall := (h.restores_filter (h.recoversWith (by decide) (by decide) (by decide))).mp hrestores
  have hesc :=
    (intact_iff h.opened _ magicEntry).mp (hall magicEntry List.mem_cons_self) (by decide)
  exact absurd hesc (by decide)

end Tunix.Jbd2
