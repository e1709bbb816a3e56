import Tunix.Spec.JournalWalk

/-!
# What a commit asks of the device

The gather buffer turns single blocks into runs, but in the end a commit goes through four
phases, each closed by a flush: the descriptors and data blocks of the log, the commit block,
the blocks' homes, and the superblock with the next sequence number. `Runs` relates a function
of the journal to such phases, for every way the device may answer.

## Key results

- `gatherPhase_runs`: writing through the gather buffer and flushing is one phase
- `logTransaction_runs`, `checkpoint_runs`: the two phases of either
-/

namespace Tunix.Jbd2

open Bytes List Disk

variable {s : State} {r : Bool × State} {k : State → Bool × State}
    {fuel position : Nat} {disk : UInt64}
  {entries ws : List Entry}

/-! ## Requests -/

/-- The second state comes from the first by device requests `hist` (newest first) and changes
    to the gather buffer. -/
structure Follows (s s' : State) (hist : History UInt64 Block) : Prop where
  base : s'.dev.base = s.dev.base
  history : s'.dev.history = hist ++ s.dev.history
  journal : ∃ gather start, s'.journal = { s.journal with gather := gather, gatherStart := start }

/-- Writing keeps the layout. -/
theorem Follows.layout {s' : State} {hist : History UInt64 Block} (h : Follows s s' hist) :
    s'.journal.toLayout = s.journal.toLayout := by
  obtain ⟨g, a, hj⟩ := h.journal
  rw [hj]

private theorem Follows.refl (s : State) : Follows s s [] := ⟨rfl, rfl, s.journal.gather, _, rfl⟩

private theorem Follows.trans {s' s'' : State} {hist hist' : History UInt64 Block}
    (h : Follows s s' hist) (h' : Follows s' s'' hist') : Follows s s'' (hist' ++ hist) where
  base := h'.base.trans h.base
  history := by rw [h'.history, h.history, append_assoc]
  journal := by
    obtain ⟨g, a, hj⟩ := h.journal
    obtain ⟨g', a', hj'⟩ := h'.journal
    exact ⟨g', a', by rw [hj', hj]⟩

private theorem landed_subset (bs : List Bool) (ws : List Entry) : Dev.landed bs ws ⊆ ws := by
  induction ws generalizing bs with
  | nil => cases bs with
    | nil => exact Subset.refl _
    | cons b bs => cases b <;> exact Subset.refl _
  | cons w ws ih =>
    cases bs with
    | nil => exact nil_subset _
    | cons b bs =>
      cases b
      · exact fun x hx => mem_cons_of_mem _ (ih bs hx)
      · exact cons_subset_cons _ (ih bs)

/-- A write request issues its blocks, or fails with some of them. -/
theorem Dev.write_spec (d : Dev) (ws : List Entry) :
    ∃ xs, (d.write ws).2.base = d.base ∧ (d.write ws).2.history = issue xs d.history ∧
      ((d.write ws).1 = true → xs = ws) ∧ xs ⊆ ws := by
  unfold Dev.write
  split
  · exact ⟨_, rfl, rfl, nofun, landed_subset _ ws⟩
  · exact ⟨ws, rfl, rfl, fun _ => rfl, Subset.refl _⟩
  · exact ⟨ws, rfl, rfl, fun _ => rfl, Subset.refl _⟩

/-- A flush completes, or leaves no trace. -/
theorem deviceFlush_spec (s : State) :
    Follows s (deviceFlush s).2 (if (deviceFlush s).1 then [.flush] else []) ∧
      (deviceFlush s).2.journal = s.journal := by
  unfold deviceFlush Dev.flush
  rcases s.dev.answers with _ | ⟨_ | _, _⟩ <;> exact ⟨⟨rfl, rfl, s.journal.gather, _, rfl⟩, rfl⟩

/-! ## The gather buffer -/

/-- The blocks waiting in the gather buffer, with the places they go to. -/
def pending (j : Journal) : List Entry :=
  j.gather.zipIdx.map fun (b, i) => (j.gatherStart + UInt64.ofNat i, b)

private theorem gatherFlush_spec (s : State) :
    ∃ xs, Follows s (gatherFlush s).2 (issue xs []) ∧ (gatherFlush s).2.journal.gather = [] ∧
      ((gatherFlush s).1 = true → xs = pending s.journal) ∧ xs ⊆ pending s.journal := by
  unfold gatherFlush
  split_ifs with hg
  · refine ⟨[], Follows.refl s, hg, fun _ => ?_, nil_subset _⟩
    simp [pending, hg]
  · obtain ⟨xs, hbase, hhist, hok, hsub⟩ := s.dev.write_spec (pending s.journal)
    exact ⟨xs, ⟨hbase, by rw [← issue_eq_append]; exact hhist, [], _, rfl⟩, rfl, hok, hsub⟩

/-- Adding a block puts it behind those that wait, and may issue these. -/
theorem gatherAdd_spec (s : State) (disk : UInt64) (data : Block) :
    ∃ xs, Follows s (gatherAdd s disk data).2 (issue xs []) ∧ ((gatherAdd s disk data).1 = true →
        xs ++ pending (gatherAdd s disk data).2.journal = pending s.journal ++ [(disk, data)]) ∧
      ((gatherAdd s disk data).1 = false →
        (gatherAdd s disk data).2.journal.gather = [] ∧ xs ⊆ pending s.journal) := by
  by_cases hfull :
    s.journal.gather ≠ [] ∧ (disk ≠ s.journal.gatherStart + UInt64.ofNat s.journal.gather.length ∨
        s.journal.gather.length = gatherBlocks)
  · -- the buffer is written out first
    obtain ⟨xs, hf, hg, hxs, hsub⟩ := gatherFlush_spec s
    obtain ⟨g, a, hj⟩ := hf.journal
    by_cases hok : (gatherFlush s).1 = true
    · simp only [gatherAdd, andThen, if_pos hfull, if_pos hok]
      refine ⟨xs, ⟨hf.base, hf.history, _, _, by rw [hj]⟩, fun _ => ?_, nofun⟩
      simp [pending, hg, hxs hok]
    · simp only [gatherAdd, andThen, if_pos hfull, if_neg hok]
      exact ⟨xs, hf, fun h => absurd h hok, fun _ => ⟨hg, hsub⟩⟩
  · simp only [gatherAdd, andThen, if_neg hfull, if_true]
    refine ⟨[], ⟨rfl, rfl, _, _, rfl⟩, fun _ => ?_, nofun⟩
    by_cases hg : s.journal.gather = []
    · simp [pending, hg]
    have hdisk : disk = s.journal.gatherStart + UInt64.ofNat s.journal.gather.length := by
      by_contra hne
      exact hfull ⟨hg, Or.inl hne⟩
    simp [pending, zipIdx_append, hg, hdisk]

/-- Adding a list of blocks. -/
theorem gatherAll_spec (ws : List Entry) (s : State) :
    ∃ xs, Follows s (gatherAll ws s).2 (issue xs []) ∧
      ((gatherAll ws s).1 = true →
        xs ++ pending (gatherAll ws s).2.journal = pending s.journal ++ ws) ∧
      ((gatherAll ws s).1 = false → (gatherAll ws s).2.journal.gather = [] ∧
        xs ⊆ pending s.journal ++ ws) := by
  -- What was issued and what is still gathered are together the blocks so far.
  induction ws generalizing s with
  | nil => exact ⟨[], Follows.refl s, fun _ => by simp [gatherAll], nofun⟩
  | cons w ws ih =>
    obtain ⟨xs, hf, hxs, hfail⟩ := gatherAdd_spec s w.1 w.2
    by_cases hok : (gatherAdd s w.1 w.2).1 = true
    · obtain ⟨ys, hf', hys, hfail'⟩ := ih (gatherAdd s w.1 w.2).2
      simp only [gatherAll, andThen, if_pos hok]
      have hissue := hf.trans hf'
      rw [← issue_eq_append, ← issue_append] at hissue
      refine ⟨xs ++ ys, hissue, fun h => ?_, fun h => ⟨(hfail' h).1, ?_⟩⟩
      · rw [append_assoc, hys h, ← append_assoc, hxs hok, append_assoc]
        rfl
      · have hall :
            pending s.journal ++ w :: ws = xs ++
              (pending (gatherAdd s w.1 w.2).2.journal ++ ws) := by
          rw [← append_assoc, hxs hok, append_assoc]
          rfl
        rw [hall]
        exact append_subset.mpr
          ⟨subset_append_left _ _, fun y hy => mem_append_right _ ((hfail' h).2 hy)⟩
    · have hfalse : (gatherAdd s w.1 w.2).1 = false := by simpa using hok
      simp only [gatherAll, andThen, if_neg hok]
      exact ⟨xs, hf, fun h => absurd h hok, fun _ => ⟨(hfail hfalse).1,
        fun x hx => mem_append_left _ ((hfail hfalse).2 hx)⟩⟩

/-- After a success the rest is run. -/
theorem andThen_of_ok (h : r.1 = true) (k : State → Bool × State) : andThen r k = k r.2 := if_pos h

/-- Both parts of a success. -/
theorem andThen_ok (h : (andThen r k).1 = true) : r.1 = true ∧ (k r.2).1 = true := by
  unfold andThen at h
  split_ifs at h with hok
  · exact ⟨hok, h⟩
  · exact absurd h hok

/-- Nothing comes behind. -/
theorem andThen_pure (r : Bool × State) : (andThen r fun s => (true, s)) = r := by
  unfold andThen
  split_ifs with h
  · rw [← h]
  · rfl

/-- The parts may be grouped. -/
theorem andThen_assoc (r : Bool × State) (k k' : State → Bool × State) :
    andThen (andThen r k) k' = andThen r fun s => andThen (k s) k' := by
  by_cases h : r.1 = true <;> simp [andThen, h]

private theorem andThen_congr {k' : State → Bool × State} (h : r.1 = true → k r.2 = k' r.2) :
    andThen r k = andThen r k' := by
  unfold andThen
  split_ifs with hok
  · exact h hok
  · rfl

private theorem gatherAll_append (xs ys : List Entry) (s : State) :
    gatherAll (xs ++ ys) s = andThen (gatherAll xs s) (gatherAll ys) := by
  induction xs generalizing s with
  | nil => rfl
  | cons x xs ih =>
    rw [cons_append, gatherAll, gatherAll, andThen_assoc]
    exact congrArg _ (funext ih)

/-! ## Phases -/

/-- A step of the journal goes through some phases on the device. -/
def Runs (s : State) (phases : List (List Entry)) (r : Bool × State) : Prop :=
  ∃ hist, Executes phases hist r.1 ∧ r.2.dev.base = s.dev.base ∧
    r.2.dev.history = hist ++ s.dev.history

/-- Phases behind phases. -/
theorem Runs.andThen {ps qs : List (List Entry)} (h : Runs s ps r)
    (hk : r.1 = true → Runs r.2 qs (k r.2)) :
    Runs s (ps ++ qs) (andThen r k) := by
  obtain ⟨hist, hex, hbase, hhist⟩ := h
  unfold Jbd2.andThen
  split_ifs with hok
  · obtain ⟨hist', hex', hbase', hhist'⟩ := hk hok
    rw [hok] at hex
    exact ⟨hist' ++ hist, hex.append hex', hbase'.trans hbase, by rw [hhist', hhist, append_assoc]⟩
  · have hfalse : r.1 = false := by simpa using hok
    rw [hfalse] at hex
    exact ⟨hist, by rw [hfalse]; exact hex.append_of_fail qs, hbase, hhist⟩

/-- Blocks that have been issued are a phase with the flush after them. -/
theorem runs_deviceFlush {s' : State} (hbase : s'.dev.base = s.dev.base)
    (hhist : s'.dev.history = issue ws [] ++ s.dev.history) : Runs s [ws] (deviceFlush s') := by
  have hf := (deviceFlush_spec s').1
  refine ⟨_, ?_, hf.base.trans hbase, by rw [hf.history, hhist, append_assoc]⟩
  cases (deviceFlush s').1 with
  | true => exact .phase .done
  | false => exact .fail fun w hw => hw

/-- A phase may fail with some of its blocks issued. -/
theorem Follows.failed {xs : List Entry} (h : Follows s r.2 (issue xs [])) (hfail : r.1 = false)
    (hsub : xs ⊆ ws) : Runs s [ws] r :=
  ⟨_, by rw [hfail]; exact .fail fun w hw => hsub hw, h.base, h.history⟩

/-- Write some blocks through the gather buffer and flush. -/
def gatherPhase (ws : List Entry) (s : State) : Bool × State :=
  andThen (gatherAll ws s) fun s => andThen (gatherFlush s) deviceFlush

private theorem gatherEnd_layout (s : State) :
    (andThen (gatherFlush s) deviceFlush).2.journal.toLayout = s.journal.toLayout := by
  obtain ⟨xs, hf, -, -⟩ := gatherFlush_spec s
  rw [andThen]
  split_ifs
  · rw [(deviceFlush_spec _).1.layout, hf.layout]
  · exact hf.layout

private theorem gatherPhase_layout (ws : List Entry) (s : State) :
    (gatherPhase ws s).2.journal.toLayout = s.journal.toLayout := by
  obtain ⟨xs, hf, -, -⟩ := gatherAll_spec ws s
  rw [gatherPhase, andThen]
  split_ifs
  · rw [gatherEnd_layout, hf.layout]
  · exact hf.layout

/-- Writing blocks through an empty gather buffer is one phase, and leaves it empty. -/
theorem gatherPhase_runs (ws : List Entry) (hg : s.journal.gather = []) :
    Runs s [ws] (gatherPhase ws s) ∧ (gatherPhase ws s).2.journal.gather = [] ∧
      ∃ g a, (gatherPhase ws s).2.journal = { s.journal with gather := g, gatherStart := a } := by
  have hnil : pending s.journal = [] := by simp [pending, hg]
  obtain ⟨xs, hf, hxs, hfail⟩ := gatherAll_spec ws s
  rw [hnil, nil_append] at hxs hfail
  unfold gatherPhase
  -- A failure in between leaves some of the blocks issued, and no others.
  by_cases hall : (gatherAll ws s).1 = true
  · obtain ⟨ys, hf2, hg2, hys, hsub⟩ := gatherFlush_spec (gatherAll ws s).2
    have hissue := hf.trans hf2
    rw [← issue_eq_append, ← issue_append] at hissue
    have hmem : xs ++ ys ⊆ ws := by
      rw [← hxs hall]
      exact append_subset.mpr ⟨subset_append_left _ _, fun y hy => mem_append_right _ (hsub hy)⟩
    simp only [andThen, if_pos hall]
    by_cases hflush : (gatherFlush (gatherAll ws s).2).1 = true
    · obtain ⟨hf3, hj3⟩ := deviceFlush_spec (gatherFlush (gatherAll ws s).2).2
      rw [hys hflush, hxs hall] at hissue
      simp only [if_pos hflush]
      exact ⟨runs_deviceFlush hissue.base hissue.history, by rw [hj3]; exact hg2,
        (hissue.trans hf3).journal⟩
    · simp only [if_neg hflush]
      exact ⟨hissue.failed (by simpa using hflush) hmem, hg2, hissue.journal⟩
  · have hfalse : (gatherAll ws s).1 = false := by simpa using hall
    simp only [andThen, if_neg hall]
    exact ⟨hf.failed hfalse (hfail hfalse).2, (hfail hfalse).1, hf.journal⟩

private theorem logWrite_spec (hloc : logLocate s.journal position = some disk) (data : Block) :
    (logWrite s position data).2.journal = s.journal ∧ ∃ xs,
      Follows s (logWrite s position data).2 (issue xs []) ∧
        ((logWrite s position data).1 = true → xs = [(disk, data)]) ∧ xs ⊆ [(disk, data)] := by
  obtain ⟨xs, hbase, hhist, hok, hsub⟩ := s.dev.write_spec [(disk, data)]
  unfold logWrite
  simp only [hloc]
  exact ⟨trivial, xs,
    ⟨hbase, by rw [← issue_eq_append]; exact hhist, s.journal.gather, _, rfl⟩, hok, hsub⟩

/-- A write with something done after it and a flush is one phase. -/
theorem writePhase_runs (hloc : logLocate s.journal position = some disk) (data : Block)
    (k : State → State)
    (hk : ∀ s, (k s).dev = s.dev) :
    Runs s [[(disk, data)]]
      (andThen (andThen (logWrite s position data) fun s => (true, k s)) deviceFlush) := by
  obtain ⟨-, xs, hf, hxs, hsub⟩ := logWrite_spec hloc data
  by_cases hok : (logWrite s position data).1 = true
  · rw [hxs hok] at hf
    simp only [andThen, if_pos hok, if_true]
    exact runs_deviceFlush (by rw [hk, hf.base]) (by rw [hk, hf.history])
  · simp only [andThen, if_neg hok]
    exact hf.failed (by simpa using hok) hsub

/-! ## Placing the blocks of a transaction -/

/-- The blocks written from a log position on, with the device blocks they go to. -/
inductive Placed (j : Layout) : Nat → List Block → List Entry → Prop where
  | nil (position : Nat) : Placed j position [] []
  | cons {position : Nat} {disk : UInt64} {block : Block} {blocks : List Block} {ws : List Entry}
      (hloc : logLocate j position = some disk) (h : Placed j (step j position) blocks ws) :
      Placed j position (block :: blocks) ((disk, block) :: ws)

/-- Blocks behind blocks. -/
theorem placed_append {j : Layout} {xs ys : List Block} : Placed j position (xs ++ ys) ws ↔
      ∃ us vs, ws = us ++ vs ∧ Placed j position xs us ∧
        Placed j ((step j)^[xs.length] position) ys vs := by
  induction xs generalizing position ws with
  | nil =>
    constructor
    · exact fun h => ⟨[], ws, rfl, .nil _, h⟩
    · rintro ⟨us, vs, rfl, ⟨⟩, h⟩
      exact h
  | cons x xs ih =>
    constructor
    · rintro (_ | ⟨hloc, h⟩)
      obtain ⟨us, vs, rfl, hus, hvs⟩ := ih.mp h
      exact ⟨_, vs, rfl, .cons hloc hus, hvs⟩
    · rintro ⟨us, vs, rfl, ⟨⟩ | ⟨hloc, h⟩, hvs⟩
      exact .cons hloc (ih.mpr ⟨_, vs, rfl, h, hvs⟩)

private theorem writeLogBlocks_cons (block : Block) (rest : List Block)
    (position : Nat) (s : State) :
    writeLogBlocks (block :: rest) position s = if (writeLogBlock s position block).1 then
        writeLogBlocks rest (step (writeLogBlock s position block).2.journal position)
          (writeLogBlock s position block).2
      else (position, writeLogBlock s position block) := by
  rw [writeLogBlocks]
  rcases hw : writeLogBlock s position block with ⟨_ | _, s'⟩ <;> rfl

/-- Writing log blocks is adding them to the gather buffer, with their places. -/
theorem writeLogBlocks_placed {blocks : List Block} (h : Placed s.journal position blocks ws) :
    (writeLogBlocks blocks position s).2 = gatherAll ws s ∧ ((gatherAll ws s).1 = true →
        (writeLogBlocks blocks position s).1 = (step s.journal)^[blocks.length] position) := by
  induction blocks generalizing position ws s with
  | nil => cases h; exact ⟨rfl, fun _ => rfl⟩
  | cons block rest ih =>
    cases h with
    | @cons _ disk _ _ ws hloc h =>
      have hadd : writeLogBlock s position block = gatherAdd s disk block := by
        simp [writeLogBlock, hloc]
      obtain ⟨xs, hf, -, -⟩ := gatherAdd_spec s disk block
      rw [writeLogBlocks_cons, hadd, gatherAll, andThen]
      split_ifs with hok
      · rw [← hf.layout] at h
        rw [length_cons, Function.iterate_succ_apply, ← hf.layout]
        exact ih h
      · exact ⟨rfl, fun h => absurd h hok⟩

/-- If all log blocks were written, each had its place. -/
theorem placed_of_writeLogBlocks {blocks : List Block}
    (hok : (writeLogBlocks blocks position s).2.1 = true) :
    ∃ ws, Placed s.journal position blocks ws := by
  induction blocks generalizing position s with
  | nil => exact ⟨[], .nil _⟩
  | cons block rest ih =>
    rw [writeLogBlocks_cons] at hok
    cases hloc : logLocate s.journal position with
    | none => simp [writeLogBlock, hloc] at hok
    | some disk =>
      have hadd : writeLogBlock s position block = gatherAdd s disk block := by
        simp [writeLogBlock, hloc]
      obtain ⟨xs, hf, -, -⟩ := gatherAdd_spec s disk block
      rw [hadd] at hok
      split_ifs at hok with hok'
      · obtain ⟨ws, hws⟩ := ih hok
        rw [hf.layout] at hws
        exact ⟨_, .cons hloc hws⟩
      · exact absurd hok hok'

/-! ## The batches of a transaction -/

/-- Cut a list into batches of `n`, with as many rounds as `log_transaction` takes at most. -/
def splitBatches (n : Nat) : Nat → List Entry → List (List Entry)
  | 0, _ => []
  | fuel + 1, entries =>
    if entries = [] then [] else entries.take n :: splitBatches n fuel (entries.drop n)

/-- The batches in which `log_transaction` logs some entries. -/
def batchesOf (j : Layout) (entries : List Entry) : List (List Entry) :=
  splitBatches (tagsPerDescriptor j) entries.length entries

/-- The descriptors and data blocks of a transaction. -/
def logBlocks (j : Layout) (sequence : UInt32) (entries : List Entry) : List Block :=
  batchesBlocks j sequence (batchesOf j entries)

private theorem splitBatches_flatten {n : Nat} (hn : 0 < n) (hfuel : entries.length ≤ fuel) :
    (splitBatches n fuel entries).flatten = entries := by
  induction fuel generalizing entries with
  | zero =>
    have : entries = [] := length_eq_zero_iff.mp (by omega)
    simp [splitBatches, this]
  | succ fuel ih =>
    rw [splitBatches]
    split_ifs with hnil
    · simp [hnil]
    · rw [flatten_cons, ih (by rw [length_drop]; omega), take_append_drop]

/-- A batch is not empty and has room. -/
theorem mem_splitBatches {n : Nat} (hn : 0 < n) {batch : List Entry}
    (h : batch ∈ splitBatches n fuel entries) : batch ≠ [] ∧ batch.length ≤ n := by
  induction fuel generalizing entries with
  | zero => simp [splitBatches] at h
  | succ fuel ih =>
    rw [splitBatches] at h
    split_ifs at h with hnil
    · simp at h
    rcases mem_cons.mp h with rfl | h
    · exact ⟨by simp [hnil]; omega, length_take_le _ _⟩
    · exact ih h

/-- The batches are the entries in order. -/
theorem batchesOf_flatten {j : Layout} (hbs : 1024 ≤ j.blockSize) (entries : List Entry) :
    (batchesOf j entries).flatten = entries :=
  splitBatches_flatten (tagsPerDescriptor_pos hbs) (le_refl _)

/-- Each batch fits into a descriptor block. -/
theorem batchesOf_valid {j : Layout} (hbs : 1024 ≤ j.blockSize) (entries : List Entry) :
    ∀ batch ∈ batchesOf j entries, ValidBatch j batch := fun batch hb => by
  obtain ⟨h1, h2⟩ := mem_splitBatches (tagsPerDescriptor_pos hbs) hb
  exact ⟨h1, h2⟩

private theorem logBatches_succ (sequence : UInt32) (fuel : Nat) (hne : entries ≠ [])
    (position : Nat) (checksum : UInt32) (s : State) :
    logBatches sequence (fuel + 1) entries position checksum s =
      let blocks := batchBlocks s.journal sequence (entries.take (tagsPerDescriptor s.journal))
      let r := writeLogBlocks blocks position s
      if r.2.1 then
        logBatches sequence fuel (entries.drop (tagsPerDescriptor s.journal)) r.1
          (sumBlocks s.journal checksum blocks) r.2.2
      else (r.1, checksum, r.2) := by
  rw [logBatches, if_neg hne]
  dsimp only
  rcases writeLogBlocks _ position s with ⟨p, _ | _, s'⟩ <;> rfl

/-- The batch loop adds the transaction's blocks to the gather buffer. -/
theorem logBatches_placed (checksum : UInt32) {sequence : UInt32} (h : Placed s.journal position
      (batchesBlocks s.journal sequence (splitBatches (tagsPerDescriptor s.journal) fuel entries))
      ws) :
    (logBatches sequence fuel entries position checksum s).2.2 = gatherAll ws s ∧
      ((gatherAll ws s).1 = true →
        (logBatches sequence fuel entries position checksum s).1 =
          (step s.journal)^[(batchesBlocks s.journal sequence
              (splitBatches (tagsPerDescriptor s.journal) fuel entries)).length] position ∧
          (logBatches sequence fuel entries position checksum s).2.1 =
            sumBlocks s.journal checksum (batchesBlocks s.journal sequence
              (splitBatches (tagsPerDescriptor s.journal) fuel entries))) := by
  induction fuel generalizing entries position checksum ws s with
  | zero =>
    cases h
    simp [logBatches, splitBatches, batchesBlocks, gatherAll, sumBlocks]
  | succ fuel ih =>
    by_cases hnil : entries = []
    · simp only [splitBatches, if_pos hnil, batchesBlocks, flatMap_nil] at h
      cases h
      simp [logBatches, splitBatches, hnil, batchesBlocks, gatherAll, sumBlocks]
    simp only [splitBatches, if_neg hnil, batchesBlocks, flatMap_cons] at h ⊢
    -- The first batch goes where its blocks are placed, the others behind it.
    obtain ⟨us, vs, rfl, hus, hvs⟩ := placed_append.mp h
    obtain ⟨hwrite, hpos⟩ := writeLogBlocks_placed hus
    obtain ⟨xs, hf, -, -⟩ := gatherAll_spec us s
    rw [logBatches_succ sequence fuel hnil]
    dsimp only
    rw [hwrite, gatherAll_append, andThen]
    split_ifs with hok
    · rw [← hpos hok, ← hf.layout] at hvs
      obtain ⟨h1, h2⟩ := ih (sumBlocks s.journal checksum (batchBlocks s.journal
        sequence (entries.take (tagsPerDescriptor s.journal)))) hvs
      rw [hf.layout] at h1 h2
      refine ⟨h1, fun hall => ?_⟩
      obtain ⟨h3, h4⟩ := h2 hall
      rw [h3, h4, hpos hok, length_append, sumBlocks_append, add_comm, Function.iterate_add_apply]
      exact ⟨rfl, rfl⟩
    · exact ⟨rfl, fun h => absurd h hok⟩

private theorem placed_of_logBatches {sequence : UInt32} {checksum : UInt32}
    (hok : (logBatches sequence fuel entries position checksum s).2.2.1 = true) :
    ∃ ws, Placed s.journal position
      (batchesBlocks s.journal sequence (splitBatches (tagsPerDescriptor s.journal) fuel entries))
      ws := by
  induction fuel generalizing entries position checksum s with
  | zero => exact ⟨[], .nil _⟩
  | succ fuel ih =>
    by_cases hnil : entries = []
    · simp only [splitBatches, if_pos hnil, batchesBlocks, flatMap_nil]
      exact ⟨[], .nil _⟩
    rw [logBatches_succ sequence fuel hnil] at hok
    dsimp only at hok
    simp only [splitBatches, if_neg hnil, batchesBlocks, flatMap_cons]
    split_ifs at hok with hw
    · obtain ⟨us, hus⟩ := placed_of_writeLogBlocks hw
      obtain ⟨hwrite, hpos⟩ := writeLogBlocks_placed hus
      obtain ⟨xs, hf, -, -⟩ := gatherAll_spec us s
      rw [hwrite] at hw hok
      obtain ⟨vs, hvs⟩ := ih hok
      rw [hf.layout, hpos hw] at hvs
      exact ⟨us ++ vs, placed_append.mpr ⟨us, vs, rfl, hus, hvs⟩⟩
    · exact absurd hok hw

/-! ## A transaction -/

/-- The position of the commit block of a transaction. -/
def commitPosition (j : Layout) (sequence : UInt32) (entries : List Entry) : Nat :=
  (step j)^[(logBlocks j sequence entries).length] j.first

/-- The commit block of a transaction. -/
def commitOf (j : Layout) (sequence : UInt32) (entries : List Entry) (now : UInt64) : Block :=
  commitBlock j sequence now (sumBlocks j 0xFFFFFFFF (logBlocks j sequence entries))

/-- The device blocks a transaction is logged to: `ws` for its descriptors and data blocks,
    `disk` for its commit block. -/
structure Plan (j : Layout) (sequence : UInt32) (entries ws : List Entry) (disk : UInt64) :
    Prop where
  placed : Placed j j.first (logBlocks j sequence entries) ws
  commit : logLocate j (commitPosition j sequence entries) = some disk

/-- `log_transaction` gathers the planned blocks, flushes, and writes the commit block. -/
theorem logTransaction_eq
    (h : Placed s.journal s.journal.first (logBlocks s.journal s.journal.sequence entries) ws)
    (now : UInt64) :
    logTransaction s entries now = andThen (gatherPhase ws s) fun s' =>
      andThen (logWrite s' (commitPosition s.journal s.journal.sequence entries)
        (commitOf s.journal s.journal.sequence entries now)) deviceFlush := by
  obtain ⟨hrun, hend⟩ := logBatches_placed 0xFFFFFFFF h
  obtain ⟨xs, hf, -, -⟩ := gatherAll_spec ws s
  unfold logTransaction gatherPhase
  rw [andThen_assoc]
  rcases hlog : logBatches s.journal.sequence entries.length entries s.journal.first 0xFFFFFFFF s
    with ⟨position, checksum, ok, s'⟩
  rw [hlog] at hrun hend
  simp only at hrun hend
  simp only [hlog]
  cases ok with
  | false => rw [← hrun]; rfl
  | true =>
    rw [← hrun] at hend
    obtain ⟨hpos, hsum⟩ := hend rfl
    obtain rfl : s' = (gatherAll ws s).2 := congrArg Prod.snd hrun
    rw [← hrun, andThen_of_ok (r := (true, _)) rfl]
    refine andThen_congr fun _ => ?_
    -- what follows works with the layout of the start
    rw [gatherEnd_layout, hf.layout, hpos, hsum]
    rfl

/-- Its writes are the planned ones and the commit block, in two phases. -/
theorem logTransaction_runs (h : Plan s.journal s.journal.sequence entries ws disk)
    (hg : s.journal.gather = [])
    (now : UInt64) :
    Runs s [ws, [(disk, commitOf s.journal s.journal.sequence entries now)]]
        (logTransaction s entries now) ∧
      ((logTransaction s entries now).1 = true → ∃ a, (logTransaction s entries now).2.journal =
          { s.journal with gather := [], gatherStart := a }) := by
  obtain ⟨hrun, hg', g, a, hj⟩ := gatherPhase_runs ws hg
  have hloc : logLocate (gatherPhase ws s).2.journal
      (commitPosition s.journal s.journal.sequence entries) = some disk := by
    rw [gatherPhase_layout]; exact h.commit
  rw [logTransaction_eq h.placed]
  constructor
  · refine hrun.andThen fun _ => ?_
    have hw := writePhase_runs hloc (commitOf s.journal s.journal.sequence entries now) id
      fun _ => rfl
    simpa only [id, andThen_pure] using hw
  · intro hok
    refine ⟨a, ?_⟩
    obtain ⟨h1, hok⟩ := andThen_ok hok
    obtain ⟨h2, -⟩ := andThen_ok hok
    rw [andThen_of_ok h1, andThen_of_ok h2, (deviceFlush_spec _).2, (logWrite_spec hloc _).1, hj]
    rw [hj] at hg'
    exact congrArg (fun g => { s.journal with gather := g, gatherStart := a }) hg'

/-- A transaction that was logged completely had a place for each of its blocks. -/
theorem plan_of_logTransaction {now : UInt64} (hok : (logTransaction s entries now).1 = true) :
    ∃ ws disk, Plan s.journal s.journal.sequence entries ws disk := by
  have hbatches : (logBatches s.journal.sequence entries.length entries s.journal.first 0xFFFFFFFF
      s).2.2.1 = true := by
    unfold logTransaction at hok
    rcases hlog : logBatches s.journal.sequence entries.length entries s.journal.first 0xFFFFFFFF s
      with ⟨position, checksum, _ | _, s'⟩
    · simp only [hlog] at hok; exact absurd hok (by simp)
    · rfl
  obtain ⟨ws, hplaced⟩ := placed_of_logBatches hbatches
  rw [logTransaction_eq hplaced] at hok
  obtain ⟨hwrite, -⟩ := andThen_ok (andThen_ok hok).2
  cases hloc : logLocate s.journal (commitPosition s.journal s.journal.sequence entries) with
  | none =>
    unfold logWrite at hwrite
    simp only [gatherPhase_layout, hloc, Bool.false_eq_true] at hwrite
  | some disk => exact ⟨ws, disk, hplaced, hloc⟩

/-- What the device answers after a success. -/
theorem read_of_runs {phases : List (List Entry)} (h : Runs s phases r) (hok : r.1 = true) :
    r.2.dev.read = apply phases.flatten s.dev.read := by
  obtain ⟨hist, hex, hbase, hhist⟩ := h
  rw [hok] at hex
  funext block
  simp only [Dev.read, hbase, hhist, hex.view_of_ok]
  rfl

/-- Writing the superblock and flushing is one phase. -/
theorem superblockPhase_runs {home : UInt64} (hhome : logLocate s.journal 0 = some home)
    (start sequence : UInt32) :
    Runs s [[(home, updateSuperblock s.journal (s.dev.read home) start sequence)]]
        (andThen (writeJournalSuperblock s start sequence) deviceFlush) ∧
      ((andThen (writeJournalSuperblock s start sequence) deviceFlush).1 = true →
        (andThen (writeJournalSuperblock s start sequence) deviceFlush).2.journal =
          { s.journal with start := start, sequence := sequence }) := by
  have hwrite : writeJournalSuperblock s start sequence =
      andThen (logWrite s 0 (updateSuperblock s.journal (s.dev.read home) start sequence)) fun s =>
        (true, { s with journal := { s.journal with start := start, sequence := sequence } }) := by
    unfold writeJournalSuperblock logRead
    simp only [hhome, Option.map_some]
  rw [hwrite]
  refine ⟨writePhase_runs hhome _ _ fun _ => rfl, fun hok => ?_⟩
  obtain ⟨hlog, -⟩ := andThen_ok (andThen_ok hok).1
  rw [andThen_of_ok (andThen_ok hok).1, andThen_of_ok hlog, (deviceFlush_spec _).2]
  simp only [(logWrite_spec hhome _).1]

/-- The superblock that ends a transaction. -/
def nextSuperblock (s : State) (home : UInt64) : Block :=
  updateSuperblock s.journal (s.dev.read home) (UInt32.ofNat s.journal.first)
    (s.journal.sequence + 1)

/-- `checkpoint` writes the blocks home and then the superblock. -/
theorem checkpoint_runs {home : UInt64} (hg : s.journal.gather = [])
    (hhome : logLocate s.journal 0 = some home)
    (hoff : OffLog s.journal entries) :
    Runs s [entries, [(home, nextSuperblock s home)]] (checkpoint s entries) ∧
      ((checkpoint s entries).1 = true →
        ∃ a, (checkpoint s entries).2.journal = { s.journal with
            start := UInt32.ofNat s.journal.first
            sequence := s.journal.sequence + 1
            gather := [], gatherStart := a }) := by
  obtain ⟨hrun, hg', g, a, hj⟩ := gatherPhase_runs entries hg
  have hck : checkpoint s entries = andThen (gatherPhase entries s) fun s' =>
      andThen (writeJournalSuperblock s' (UInt32.ofNat s'.journal.first) (s'.journal.sequence + 1))
        deviceFlush := by
    unfold checkpoint gatherPhase
    rw [andThen_assoc]
  have hloc : logLocate (gatherPhase entries s).2.journal 0 = some home := by rw [hj]; exact hhome
  obtain ⟨hsbrun, hsbj⟩ := superblockPhase_runs hloc
    (UInt32.ofNat (gatherPhase entries s).2.journal.first)
    ((gatherPhase entries s).2.journal.sequence + 1)
  rw [hck]
  constructor
  · refine hrun.andThen fun hok => ?_
    -- the homes of the entries are not the superblock
    have hsb : (gatherPhase entries s).2.dev.read home = s.dev.read home := by
      rw [read_of_runs hrun hok]
      exact apply_of_not_mem fun w hw heq => hoff w (by simpa using hw) 0 (heq ▸ hhome)
    have hnext : nextSuperblock s home = updateSuperblock (gatherPhase entries s).2.journal
        ((gatherPhase entries s).2.dev.read home)
        (UInt32.ofNat (gatherPhase entries s).2.journal.first)
        ((gatherPhase entries s).2.journal.sequence + 1) := by
      rw [hsb, hj]
      rfl
    rw [hnext]
    exact hsbrun
  · intro hok
    obtain ⟨h1, h2⟩ := andThen_ok hok
    refine ⟨a, ?_⟩
    rw [andThen_of_ok h1, hsbj h2]
    rw [hj] at hg'
    rw [hj]
    exact congrArg (fun g => { s.journal with
      start := UInt32.ofNat s.journal.first, sequence := s.journal.sequence + 1
      gather := g, gatherStart := a }) hg'

/-! ## Devices that work -/

/-- A step has succeeded, and the device goes on working. -/
def Works (r : Bool × State) : Prop := r.1 = true ∧ r.2.dev.answers = []

/-- One part that works behind another. -/
theorem Works.andThen (h : Works r) (hk : r.2.dev.answers = [] → Works (k r.2)) :
    Works (andThen r k) := by
  rw [andThen_of_ok h.1]
  exact hk h.2

private theorem deviceFlush_works (h : s.dev.answers = []) : Works (deviceFlush s) := by
  simp [Works, deviceFlush, Dev.flush, h]

private theorem gatherFlush_works (h : s.dev.answers = []) : Works (gatherFlush s) := by
  unfold gatherFlush
  split_ifs
  · exact ⟨rfl, h⟩
  · simp only [Dev.write_calm h]
    exact ⟨rfl, h⟩

private theorem gatherAll_works (ws : List Entry) (h : s.dev.answers = []) :
    Works (gatherAll ws s) := by
  induction ws generalizing s with
  | nil => exact ⟨rfl, h⟩
  | cons w ws ih =>
    refine Works.andThen ?_ ih
    refine Works.andThen ?_ fun h' => ⟨rfl, h'⟩
    split_ifs
    · exact gatherFlush_works h
    · exact ⟨rfl, h⟩

private theorem gatherPhase_works (ws : List Entry) (h : s.dev.answers = []) :
    Works (gatherPhase ws s) :=
  (gatherAll_works ws h).andThen fun h => (gatherFlush_works h).andThen deviceFlush_works

private theorem logWrite_works (hloc : logLocate s.journal position = some disk) (data : Block)
    (h : s.dev.answers = []) :
    Works (logWrite s position data) := by
  unfold logWrite
  simp only [hloc, Dev.write_calm h]
  exact ⟨rfl, h⟩

/-- On a device that does not fail the transaction is logged. -/
theorem logTransaction_works (hp : Plan s.journal s.journal.sequence entries ws disk)
    (hg : s.journal.gather = [])
    (now : UInt64) (h : s.dev.answers = []) : Works (logTransaction s entries now) := by
  rw [logTransaction_eq hp.placed]
  refine (gatherPhase_works ws h).andThen fun h => ?_
  obtain ⟨-, -, g, a, hj⟩ := gatherPhase_runs ws hg
  exact (logWrite_works (by rw [hj]; exact hp.commit) _ h).andThen deviceFlush_works

/-- On a device that does not fail the blocks are written home. -/
theorem checkpoint_works {home : UInt64} (hg : s.journal.gather = [])
    (hhome : logLocate s.journal 0 = some home)
    (h : s.dev.answers = []) : Works (checkpoint s entries) := by
  obtain ⟨-, -, g, a, hj⟩ := gatherPhase_runs entries hg
  have hloc : logLocate (gatherPhase entries s).2.journal 0 = some home := by rw [hj]; exact hhome
  unfold checkpoint
  rw [← andThen_assoc]
  refine (gatherPhase_works entries h).andThen fun h => ?_
  refine Works.andThen ?_ deviceFlush_works
  unfold writeJournalSuperblock logRead
  rw [hloc]
  exact (logWrite_works hloc _ h).andThen fun h => ⟨rfl, h⟩

end Tunix.Jbd2
