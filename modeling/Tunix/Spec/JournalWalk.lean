import Tunix.Spec.JournalCodec

/-!
# Walking a log that a transaction wrote

`walk_log` over the blocks of a transaction. `Holds` says what the log holds from a position
on; under it every pass of the walk goes through the descriptors and data blocks one batch
after the other (`walkBlocks_batches`), over the commit block (`walkBlocks_commit`) and stops
at the first block that does not belong to the next transaction (`walkBlocks_scan_end`). The
replay pass leaves the writes of `replayed` behind, the other passes leave the device alone.
-/

namespace Tunix.Jbd2

open Bytes List

variable {s : State} {position : Nat} {checksum sequence stop : UInt32} {pass : Pass}

/-! ## What the log holds -/

/-- From `position` on, the log holds the given blocks. -/
def Holds (j : Layout) (read : UInt64 → Block) : Nat → List Block → Prop
  | _, [] => True
  | position, block :: rest =>
    logRead j read position = some block ∧ Holds j read (step j position) rest

/-- The homes of the entries are not blocks of the journal. -/
def OffLog (j : Layout) (entries : List Entry) : Prop :=
  ∀ e ∈ entries, ∀ position, logLocate j position ≠ some e.1

/-- The state after the device has completed a list of writes. -/
def State.issue (s : State) (ws : List Entry) : State :=
  { s with dev := { s.dev with history := Disk.issue ws s.dev.history } }

/-- Nothing is issued. -/
theorem State.issue_nil (s : State) : s.issue [] = s := rfl

private theorem State.issue_append (s : State) (ws vs : List Entry) :
    s.issue (ws ++ vs) = (s.issue ws).issue vs := by
  simp [State.issue, Disk.issue_append]

/-- A device without failures completes a write. -/
theorem Dev.write_calm {d : Dev} (h : d.answers = []) (ws : List Entry) :
    d.write ws = (true, { d with history := Disk.issue ws d.history }) := by
  simp [Dev.write, h]

private theorem read_issue (s : State) (ws : List Entry) (block : UInt64) :
    (s.issue ws).dev.read block = Disk.apply ws s.dev.read block := by
  simp only [Dev.read, State.issue, Disk.view_issue]
  rfl

private theorem logRead_issue {ws : List Entry} (h : OffLog s.journal ws) (position : Nat) :
    logRead s.journal (s.issue ws).dev.read position = logRead s.journal s.dev.read position := by
  unfold logRead
  cases hloc : logLocate s.journal position with
  | none => rfl
  | some disk =>
    simp only [Option.map_some, read_issue, Option.some.injEq]
    exact Disk.apply_of_not_mem fun w hw heq => h w hw position (heq ▸ hloc)

/-- Writes to other places leave the log as it is. -/
theorem Holds.issue {ws : List Entry} (h : OffLog s.journal ws) {blocks : List Block}
    (hlog : Holds s.journal s.dev.read position blocks) :
    Holds s.journal (s.issue ws).dev.read position blocks := by
  induction blocks generalizing position with
  | nil => trivial
  | cons block rest ih => exact ⟨(logRead_issue h position).trans hlog.1, ih hlog.2⟩

/-- The log holds blocks one behind the other. -/
theorem holds_append {j : Layout} {read : UInt64 → Block} {xs ys : List Block} :
    Holds j read position (xs ++ ys) ↔
      Holds j read position xs ∧ Holds j read ((step j)^[xs.length] position) ys := by
  induction xs generalizing position with
  | nil => simp [Holds]
  | cons x xs ih =>
    simp only [cons_append, Holds, ih, length_cons, Function.iterate_succ_apply, and_assoc]

/-! ## Checksums along the walk -/

/-- The checksum goes on behind the first blocks. -/
theorem sumBlocks_append (j : Layout) (checksum : UInt32) (xs ys : List Block) :
    sumBlocks j checksum (xs ++ ys) = sumBlocks j (sumBlocks j checksum xs) ys := by
  unfold sumBlocks
  split_ifs
  · exact foldl_append
  · rfl

/-- The v1 checksum after a pass over some blocks: only the scan keeps one. -/
def walkSum (pass : Pass) (j : Layout) (checksum : UInt32) (blocks : List Block) : UInt32 :=
  if pass = .scan then sumBlocks j checksum blocks else checksum

private theorem walkSum_append (pass : Pass) (j : Layout) (checksum : UInt32) (xs ys : List Block) :
    walkSum pass j checksum (xs ++ ys) = walkSum pass j (walkSum pass j checksum xs) ys := by
  unfold walkSum
  split_ifs
  · exact sumBlocks_append j checksum xs ys
  · rfl

private theorem walkSum_cons (pass : Pass) (j : Layout) (checksum : UInt32) (block : Block)
    (rest : List Block) :
    walkSum pass j checksum (block :: rest) =
      walkSum pass j (walkSum pass j checksum [block]) rest :=
  walkSum_append pass j checksum [block] rest

/-! ## One data block -/

/-- The reader finds the image of the block in the log intact. -/
def intact (j : Layout) (sequence : UInt32) (e : Entry) : Bool :=
  !hasCsum j || blockSum j sequence (escaped e.2) = blockSum j sequence e.2

/-- What a pass leaves of the device when it has been over the data blocks of some entries. -/
def replayed (pass : Pass) (sequence : UInt32) (s : State) (entries : List Entry) : State :=
  if pass = .replay then s.issue (entries.filter (intact s.journal sequence)) else s

/-- Replaying changes the device only. -/
@[simp] theorem replayed_journal (pass : Pass) (sequence : UInt32) (s : State)
    (entries : List Entry) : (replayed pass sequence s entries).journal = s.journal := by
  unfold replayed
  split_ifs <;> rfl

private theorem replayed_append (pass : Pass) (sequence : UInt32) (s : State) (xs ys : List Entry) :
    replayed pass sequence s (xs ++ ys) =
      replayed pass sequence (replayed pass sequence s xs) ys := by
  unfold replayed
  split_ifs
  · rw [filter_append, State.issue_append]; rfl
  · rfl

private theorem replayed_answers (pass : Pass) (sequence : UInt32) (s : State)
    (entries : List Entry) :
    (replayed pass sequence s entries).dev.answers = s.dev.answers := by
  unfold replayed
  split_ifs <;> rfl

/-- Fewer blocks are off the log too. -/
theorem OffLog.of_subset {j : Layout} {xs ys : List Entry} (h : OffLog j ys) (hsub : xs ⊆ ys) :
    OffLog j xs := fun e he => h e (hsub he)

/-- Replaying does not change the log. -/
theorem Holds.replayed {entries : List Entry} (h : OffLog s.journal entries)
    {blocks : List Block} (hlog : Holds s.journal s.dev.read position blocks)
    (pass : Pass) (sequence : UInt32) :
    Holds s.journal (replayed pass sequence s entries).dev.read position blocks := by
  unfold Jbd2.replayed
  split_ifs
  · exact hlog.issue (h.of_subset fun e he => mem_of_mem_filter he)
  · exact hlog

/-- Replaying an intact image writes the block that was logged; another image is skipped. -/
theorem replayBlock_tagOf {e : Entry} (last : Bool)
    (hcalm : s.dev.answers = [])
    (hread : logRead s.journal s.dev.read position = some (escaped e.2))
    (hrep : Representable s.journal e.1) :
    replayBlock s (tagOf s.journal sequence e last) position sequence =
      (true, replayed .replay sequence s [e]) := by
  have hsum : (if hasCsumV3 s.journal then dataCsum s.journal sequence (escaped e.2)
      else dataCsum s.journal sequence (escaped e.2) &&& 0xFFFF) =
      blockSum s.journal sequence (escaped e.2) := rfl
  have hwrite (data : Block) (hdata : data = e.2) :
      (if hasCsum s.journal = true ∧ blockSum s.journal sequence (escaped e.2) ≠
          (if hasCsum s.journal then blockSum s.journal sequence e.2 else 0) then (true, s)
        else (true, s.issue [(e.1, data)])) = (true, replayed .replay sequence s [e]) := by
    subst hdata
    by_cases hcsum : hasCsum s.journal = true
    · by_cases hok : blockSum s.journal sequence (escaped e.2) = blockSum s.journal sequence e.2
      · simp [replayed, intact, hcsum, hok]
      · simp [replayed, intact, hcsum, hok, State.issue_nil]
    · simp [replayed, intact, hcsum]
  unfold replayBlock
  simp only [hread, hsum, tagOf, heldTarget_eq hrep, Dev.write_calm hcalm, tagFlags_escape, ne_eq]
  by_cases hesc : needsEscape e.2 = true
  · simpa [hesc, State.issue] using hwrite _ (unescape_escaped hesc)
  · simpa [hesc, State.issue] using hwrite _ (escaped_of_not (by simpa using hesc))

/-! ## One batch -/

private theorem revoked_of_empty {j : Journal} (h : j.revokeCapacity = 0) (block : UInt64)
    (sequence : UInt32) : revoked j block sequence = false := by
  simp [revoked, h]

/-- Nothing fails on the device and no block is revoked. -/
structure Calm (s : State) : Prop where
  answers : s.dev.answers = []
  revokes : s.journal.revokeCapacity = 0

private theorem Calm.replayed (h : Calm s) (pass : Pass) (sequence : UInt32)
    (entries : List Entry) : Calm (replayed pass sequence s entries) where
  answers := (replayed_answers ..).trans h.answers
  revokes := by rw [replayed_journal]; exact h.revokes

/-- The images of the data blocks of some entries. -/
def images (entries : List Entry) : List Block := entries.map fun e => escaped e.2

/-- The tag loop goes through the tags of a batch and, with them, over its data blocks. -/
theorem walkTags_batch (pass : Pass) {work : Block} {limit : Nat} {batch : List Entry}
    (hne : batch ≠ []) (fuel off tags : Nat) (w : Walk) (s : State) (hcalm : Calm s)
    (ht : Tags s.journal w.sequence work off batch)
    (hfit : off + batch.length * tagBytes s.journal ≤ limit) (hfuel : batch.length ≤ fuel)
    (hlog : Holds s.journal s.dev.read w.position (images batch)) (hoff : OffLog s.journal batch)
    (hrep : pass = .replay → ∀ e ∈ batch, Representable s.journal e.1) :
    walkTags pass work limit fuel off tags w s = (some (tags + batch.length,
        ⟨(step s.journal)^[batch.length] w.position, w.sequence,
          walkSum pass s.journal w.checksum (images batch)⟩),
        replayed pass w.sequence s batch) := by
  induction batch generalizing fuel off tags w s with
  | nil => exact absurd rfl hne
  | cons e rest ih =>
    obtain ⟨fuel, rfl⟩ : ∃ k, fuel = k + 1 := ⟨fuel - 1, by simp at hfuel; omega⟩
    obtain ⟨htag, htags⟩ := ht
    obtain ⟨hread, hlog⟩ := hlog
    rw [length_cons, Nat.succ_mul] at hfit
    -- the scan adds the image to its checksum, the replay pass writes the block
    have hsum : (if pass = .scan ∧ sumV1 s.journal then
          (logRead s.journal s.dev.read w.position).map fun scratch =>
            Crc.crc32Be w.checksum scratch s.journal.blockSize
        else some w.checksum) =
        some (walkSum pass s.journal w.checksum [escaped e.2]) := by
      unfold walkSum sumBlocks
      by_cases hscan : pass = .scan <;> by_cases hv1 : sumV1 s.journal = true <;>
        simp [hscan, hv1, hread]
    have hrun : (if pass = .replay ∧ !revoked s.journal
            (tagOf s.journal w.sequence e rest.isEmpty).target w.sequence then
          replayBlock s (tagOf s.journal w.sequence e rest.isEmpty) w.position w.sequence
        else (true, s)) = (true, replayed pass w.sequence s [e]) := by
      rw [revoked_of_empty hcalm.revokes]
      by_cases hreplay : pass = .replay
      · rw [replayBlock_tagOf _ hcalm.answers hread (hrep hreplay e mem_cons_self)]
        simp [hreplay]
      · simp [hreplay, replayed]
    have hstep : tagSize s.journal (tagOf s.journal w.sequence e rest.isEmpty) =
        tagBytes s.journal := if_neg (tagFlags_sameUuid _ _)
    rw [walkTags, if_pos (by omega)]
    simp only [htag, hsum, hstep]
    rw [hrun]
    simp only [Bool.not_true, Bool.false_eq_true, if_false]
    rw [show images (e :: rest) = escaped e.2 :: images rest from rfl,
      walkSum_cons pass s.journal w.checksum (escaped e.2) (images rest),
      length_cons, Function.iterate_succ_apply, show e :: rest = [e] ++ rest from rfl,
      replayed_append]
    cases rest with
    | nil =>
      have hlast : (tagOf s.journal w.sequence e true).flags &&& flagLastTag ≠ 0 := fun h0 =>
        absurd ((tagFlags_last _ _).mp h0) (by decide)
      simp [hlast, images, walkSum, sumBlocks, replayed, State.issue_nil]
    | cons e' rest =>
      have hlast : (tagOf s.journal w.sequence e false).flags &&& flagLastTag = 0 :=
        (tagFlags_last _ _).mpr rfl
      simp only [isEmpty_cons, hlast, ne_eq, not_true, if_false]
      have hoff1 : OffLog s.journal [e] := hoff.of_subset (by simp)
      have hj : (replayed pass w.sequence s [e]).journal = s.journal := replayed_journal ..
      have hnext := ih (cons_ne_nil _ _) fuel (off + tagBytes s.journal) (tags + 1)
        ⟨step s.journal w.position, w.sequence, walkSum pass s.journal w.checksum [escaped e.2]⟩
        (replayed pass w.sequence s [e]) (hcalm.replayed ..)
      rw [hj] at hnext
      rw [hnext htags (by omega) (by simp at hfuel ⊢; omega)
        (hlog.replayed hoff1 pass w.sequence) (hoff.of_subset (subset_cons_self _ _))
        fun hreplay e' he' => hrep hreplay e' (mem_cons_of_mem _ he')]
      simp only [Prod.mk.injEq, Option.some.injEq, and_true]
      omega

/-- A batch that one descriptor can describe. -/
structure ValidBatch (j : Layout) (batch : List Entry) : Prop where
  nonempty : batch ≠ []
  length_le : batch.length ≤ tagsPerDescriptor j

/-- A batch takes its blocks and a descriptor. -/
theorem batchBlocks_length (j : Layout) (sequence : UInt32) (batch : List Entry) :
    (batchBlocks j sequence batch).length = batch.length + 1 := by
  simp [batchBlocks]

/-- One round of the block loop takes a descriptor and the data blocks behind it. -/
theorem walkBlocks_batch {guard : Nat} {batch : List Entry} (hcalm : Calm s)
    (hbs : 1024 ≤ s.journal.blockSize)
    (hvalid : ValidBatch s.journal batch) (hstop : pass = .scan ∨ sequence ≠ stop)
    (hlog : Holds s.journal s.dev.read position (batchBlocks s.journal sequence batch))
    (hoff : OffLog s.journal batch)
    (hrep : pass = .replay → ∀ e ∈ batch, Representable s.journal e.1) :
    walkBlocks pass stop (guard + 1) ⟨position, sequence, checksum⟩ s = walkBlocks pass stop guard
        ⟨(step s.journal)^[batch.length + 1] position, sequence,
          walkSum pass s.journal checksum (batchBlocks s.journal sequence batch)⟩
        (replayed pass sequence s batch) := by
  obtain ⟨hread, hdata⟩ := hlog
  have hhdr : Header (descriptor s.journal sequence batch) descriptorBlockType sequence :=
    descriptor_header hbs hvalid.length_le
  have hfits := batch_fits hvalid.length_le hbs
  have hlen : batch.length ≤ s.journal.blockSize := by
    have h8 := (tagBytes_bounds s.journal).1
    have hmul : batch.length * 1 ≤ batch.length * tagBytes s.journal :=
      Nat.mul_le_mul_left _ (by omega)
    omega
  have hsum : (if sumV1 s.journal ∧ pass = .scan then
        Crc.crc32Be checksum (descriptor s.journal sequence batch) s.journal.blockSize
      else checksum) =
      walkSum pass s.journal checksum [descriptor s.journal sequence batch] := by
    unfold walkSum sumBlocks
    by_cases hscan : pass = .scan <;> by_cases hv1 : sumV1 s.journal = true <;> simp [hscan, hv1]
  -- The tags are read in order, and each has its block behind the descriptor.
  have htags := walkTags_batch pass hvalid.nonempty s.journal.blockSize headerBytes 0
    ⟨step s.journal position, sequence,
      walkSum pass s.journal checksum [descriptor s.journal sequence batch]⟩ s hcalm
    (descriptor_tags hbs hvalid.length_le) hfits hlen hdata hoff hrep
  have hcsum : ¬(hasCsum s.journal = true ∧
      blockCsum s.journal (descriptor s.journal sequence batch) (s.journal.blockSize - 4) ≠
        loadBe32 (descriptor s.journal sequence batch) (s.journal.blockSize - 4)) := fun h =>
    h.2 (descriptor_blockCsum sequence batch h.1)
  have hgo : ¬(pass ≠ .scan ∧ sequence = stop) := by tauto
  have htype : descriptorBlockType ≠ commitBlockType ∧ descriptorBlockType ≠ revokeBlockType := by
    decide
  rw [walkBlocks, if_neg hgo]
  simp only [hread, hhdr.magic, hhdr.type, hhdr.sequence, ne_eq, not_true, or_self, if_false,
    htype.1, htype.2]
  rw [if_neg hcsum, hsum, htags]
  have htags0 : 0 + batch.length ≠ 0 := by
    have := length_pos_iff.mpr hvalid.nonempty
    omega
  simp only [htags0, if_false]
  rw [Function.iterate_succ_apply, show batchBlocks s.journal sequence batch =
      descriptor s.journal sequence batch :: images batch from rfl,
    walkSum_cons pass s.journal checksum (descriptor s.journal sequence batch) (images batch)]

/-! ## A whole transaction -/

/-- The blocks of some batches, in the order they are logged. -/
def batchesBlocks (j : Layout) (sequence : UInt32) (batches : List (List Entry)) : List Block :=
  batches.flatMap (batchBlocks j sequence)

/-- The block loop takes one round for each batch. -/
theorem walkBlocks_batches {batches : List (List Entry)} (hcalm : Calm s)
    (hbs : 1024 ≤ s.journal.blockSize)
    (hvalid : ∀ batch ∈ batches, ValidBatch s.journal batch)
    (hstop : pass = .scan ∨ sequence ≠ stop)
    (hlog : Holds s.journal s.dev.read position (batchesBlocks s.journal sequence batches))
    (hoff : OffLog s.journal batches.flatten)
    (hrep : pass = .replay → ∀ e ∈ batches.flatten, Representable s.journal e.1) (guard : Nat) :
    walkBlocks pass stop (guard + batches.length) ⟨position, sequence, checksum⟩ s =
      walkBlocks pass stop guard
        ⟨(step s.journal)^[(batchesBlocks s.journal sequence batches).length] position, sequence,
          walkSum pass s.journal checksum (batchesBlocks s.journal sequence batches)⟩
        (replayed pass sequence s batches.flatten) := by
  induction batches generalizing position checksum s with
  | nil => simp [batchesBlocks, walkSum, sumBlocks, replayed, State.issue_nil]
  | cons batch rest ih =>
    have hsplit : batchesBlocks s.journal sequence (batch :: rest) =
        batchBlocks s.journal sequence batch ++ batchesBlocks s.journal sequence rest := by
      simp [batchesBlocks]
    rw [hsplit, holds_append] at hlog
    have hoff1 : OffLog s.journal batch := hoff.of_subset (by simp)
    have hoff2 : OffLog s.journal rest.flatten := hoff.of_subset (by simp)
    have hj : (replayed pass sequence s batch).journal = s.journal := replayed_journal ..
    rw [length_cons, ← add_assoc,
      walkBlocks_batch hcalm hbs (hvalid batch mem_cons_self) hstop hlog.1 hoff1
        fun hreplay e he => hrep hreplay e (by simp [he])]
    -- Replaying a batch does not write into the log, so the next one is still there.
    have hlog2 := hlog.2.replayed hoff1 pass sequence
    rw [batchBlocks_length] at hlog2
    rw [ih (hcalm.replayed ..) (by rw [hj]; exact hbs)
      (by rw [hj]; exact fun b hb => hvalid b (mem_cons_of_mem _ hb))
      (by rw [hj]; exact hlog2) (by rw [hj]; exact hoff2)
      (by rw [hj]; exact fun hreplay e he => hrep hreplay e (by
        rw [flatten_cons]; exact mem_append_right _ he)), hj, hsplit, walkSum_append,
      length_append, batchBlocks_length, add_comm (batch.length + 1),
      Function.iterate_add_apply _ _ (batch.length + 1), flatten_cons, replayed_append]

/-- The block loop goes over the commit block; the scan only if its checksum fits. -/
theorem walkBlocks_commit {guard : Nat} {block : Block}
    (hread : logRead s.journal s.dev.read position = some block)
    (hhdr : Header block commitBlockType sequence) (hstop : pass = .scan ∨ sequence ≠ stop)
    (hok : pass = .scan → commitValid s.journal block checksum = true) :
    walkBlocks pass stop (guard + 1) ⟨position, sequence, checksum⟩ s =
      walkBlocks pass stop guard ⟨step s.journal position, sequence + 1, 0xFFFFFFFF⟩ s := by
  have hgo : ¬(pass ≠ .scan ∧ sequence = stop) := by tauto
  have hvalid : ¬(pass = .scan ∧ (!commitValid s.journal block checksum) = true) := by
    rintro ⟨hscan, h⟩
    simp [hok hscan] at h
  rw [walkBlocks, if_neg hgo]
  simp only [hread, hhdr.magic, hhdr.type, hhdr.sequence, ne_eq, not_true, or_self, if_false,
    if_true, if_neg hvalid]

/-- The block at a position does not start transaction `sequence`: it is the end of the walk. -/
def EndsLog (j : Layout) (read : UInt64 → Block) (position : Nat) (sequence : UInt32) : Prop :=
  ∃ block, logRead j read position = some block ∧
    (loadBe32 block 0 ≠ magic ∨ loadBe32 block 8 ≠ sequence)

/-- The walk stops where the log ends. -/
theorem walkBlocks_scan_end (hend : EndsLog s.journal s.dev.read position sequence) (guard : Nat) :
    walkBlocks .scan stop guard ⟨position, sequence, checksum⟩ s =
      (some ⟨position, sequence, checksum⟩, s) := by
  obtain ⟨block, hread, hno⟩ := hend
  cases guard with
  | zero => rfl
  | succ guard =>
    rw [walkBlocks, if_neg (by simp)]
    simp only [hread, if_pos hno]

/-- The later passes stop where the scan has stopped. -/
theorem walkBlocks_stop (hpass : pass ≠ .scan) {w : Walk}
    (hstop : w.sequence = stop) (guard : Nat) :
    walkBlocks pass stop guard w s = (some w, s) := by
  cases guard with
  | zero => rfl
  | succ guard => rw [walkBlocks, if_pos ⟨hpass, hstop⟩]

end Tunix.Jbd2
