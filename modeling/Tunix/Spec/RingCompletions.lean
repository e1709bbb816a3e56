import Mathlib.Data.List.Nodup
import Tunix.Spec.RingSafety

/-!
# Every operation is completed once

`Accounts` is the invariant of the list of operations with the completion entries that were written
so far: an operation that was accepted is in the list, or it left it with one entry, or it left it
without one because it succeeded and asked for none. Steps and settling keep it (`Accounts.of_kept`,
`Accounts.settle`), a submission adds to the list (`Accounts.append`), and posting moves an
operation from the list to the entries (`Accounts.post`). Together with `Queue`, which holds of the
memory under a user space that only advances the completion head, it is kept by each call.

The main result is `completed_once`.
-/

namespace Tunix.IoUring

open Bytes List Returns UInt32

variable {shape : Shape} {world : World}

/-! ## The list of operations and the entries -/

/-- An operation that leaves the list without an entry: it succeeded and asked for none then. -/
def Op.Skipped (op : Op) : Prop := op.sqeFlags &&& sqeCqeSkipSuccess ≠ 0 ∧ 0 ≤ op.result

/-- The entry of an operation. -/
def Context.completion (c : Context) (address : Nat) : Completion :=
  ⟨address, (c.ops address).userData, (c.ops address).result⟩

/-- What became of the operations that were accepted, whose addresses are those below
    `nextAddress`. -/
structure Accounts (c : Context) (log : List Completion) : Prop where
  linked : Linked c
  /-- An operation waits for one before it in the list. -/
  after : PointsBack c Op.after
  count : c.opCount.toNat = c.queue.length
  once : (log.map (·.address)).Nodup
  /-- An entry is that of an operation which has left the list. -/
  written : ∀ e ∈ log, e.address < c.nextAddress ∧ e.address ∉ c.queue ∧
    ¬(c.ops e.address).Skipped ∧
    e = c.completion e.address
  /-- No operation is lost. -/
  removed : ∀ a, a < c.nextAddress → a ∉ c.queue → (c.ops a).Skipped ∨ a ∈ log.map (·.address)

section

variable {c t : Context} {log : List Completion} {a : Nat}

/-- The list and the operations that are gone stay, and the links are good again. -/
theorem Accounts.congr (h : Accounts c log) (hlinked : Linked t) (hafter : PointsBack t Op.after)
    (hqueue : t.queue = c.queue) (hnext : t.nextAddress = c.nextAddress)
    (hcount : t.opCount = c.opCount)
    (hgone : ∀ i, i ∉ c.queue → t.ops i = c.ops i) : Accounts t log where
  linked := hlinked
  after := hafter
  count := by
    rw [hcount, hqueue]
    exact h.count
  once := h.once
  written e he := by
    obtain ⟨hlt, hout, hskip, heq⟩ := h.written e he
    rw [hnext, hqueue, hgone _ hout]
    refine ⟨hlt, hout, hskip, ?_⟩
    unfold Context.completion
    rw [hgone _ hout]
    exact heq
  removed a ha hout := by
    rw [hnext] at ha
    rw [hqueue] at hout
    rw [hgone a hout]
    exact h.removed a ha hout

private theorem Accounts.of_kept (h : Accounts c log) (hct : Kept c t) : Accounts t log := by
  have hcount : t.opCount = c.opCount := by rw [hct.rest]
  exact h.congr (h.linked.of_frame hct.frame)
    (h.after.of_frame hct.frame fun i => (hct.links i).after) hct.queue
    hct.frame.nextAddress hcount hct.gone

private theorem Accounts.of_untouched (h : Accounts c log) (hct : Untouched c t) :
    Accounts t log := by
  have hsame := hct.sameOps
  have hafter : PointsBack t Op.after := h.after.of_frame hct.frame fun i => by rw [hsame.ops]
  exact h.congr (h.linked.of_frame hct.frame) hafter hsame.queue hsame.nextAddress hct.opCount
    fun i _ => by rw [hsame.ops]

private theorem Extends.of_kept (h : Kept c t) : Extends c t where
  nextAddress := by rw [h.rest]
  userData i _ := (h.links i).userData
  sqeFlags i _ := (h.links i).sqeFlags

/-! Settling changes operations of the list only. -/

private theorem Settles.gone {i : Nat} (h : Settles a c t) (ha : a ∈ c.queue) (hi : i ∉ c.queue) :
    t.ops i = c.ops i := by
  obtain heq | ⟨hmem, _⟩ := h.other i fun hia => hi (hia ▸ ha)
  · exact heq
  · exact absurd hmem hi

private theorem Accounts.settle (h : Accounts c log) (ha : a ∈ c.queue) (hct : Settles a c t) :
    Accounts t log := by
  have hafter : PointsBack t Op.after :=
    hct.pointsBack (fun hunlinked => hunlinked.after) (by rw [hct.self]) h.after
  apply h.congr (hct.linked h.linked) hafter
  · rw [hct.rest]
  · rw [hct.rest]
  · rw [hct.rest]
  · exact fun i hi => hct.gone ha hi

private theorem Extends.of_settles (h : Settles a c t) : Extends c t := by
  have hops : ∀ i, (t.ops i).userData = (c.ops i).userData ∧
      (t.ops i).sqeFlags = (c.ops i).sqeFlags := by
    intro i
    by_cases hi : i = a
    · rw [hi, h.self]
      exact ⟨Eq.refl _, Eq.refl _⟩
    · obtain heq | ⟨_, hunlinked⟩ := h.other i hi
      · rw [heq]
        exact ⟨Eq.refl _, Eq.refl _⟩
      · exact ⟨hunlinked.userData, hunlinked.sqeFlags⟩
  exact ⟨by rw [h.rest], fun i _ => (hops i).1, fun i _ => (hops i).2⟩

/-! Posting moves an operation from the list to the entries. -/

private theorem mem_erase_queue (h : Linked c) {i : Nat} :
    i ∈ (c.retire a).queue ↔ i ≠ a ∧ i ∈ c.queue :=
  Nodup.mem_erase_iff (h.sorted.imp ne_of_lt)

section

variable (h : Accounts c log) (ha : a ∈ c.queue)
include h ha

/-- What the two ways to leave the list have in common. -/
theorem Accounts.count_retire :
    (c.retire a).opCount.toNat = (c.retire a).queue.length := by
  have hpos := length_pos_of_mem ha
  have hone : (1 : UInt32).toNat = 1 := rfl
  have hlt := c.opCount.toNat_lt
  have hcount := h.count
  show (c.opCount - 1).toNat = (c.queue.erase a).length
  rw [length_erase_of_mem ha, UInt32.toNat_sub, hone]
  omega

private theorem Accounts.skip (hsettled : (c.ops a).settled = true)
    (hskip : (c.ops a).Skipped) : Accounts (c.retire a) log where
  linked := retire_linked h.linked hsettled
  after := h.after.retire hsettled
  count := h.count_retire ha
  once := h.once
  written e he := by
    obtain ⟨hlt, hout, hrest⟩ := h.written e he
    exact ⟨hlt, fun hmem => hout ((mem_erase_queue h.linked).mp hmem).2, hrest⟩
  removed b hb hout := by
    by_cases hba : b = a
    · rw [hba]
      exact .inl hskip
    · exact h.removed b hb fun hmem => hout ((mem_erase_queue h.linked).mpr ⟨hba, hmem⟩)

private theorem Accounts.post (hsettled : (c.ops a).settled = true)
    (hskip : ¬(c.ops a).Skipped) : Accounts (c.retire a) (log ++ [c.completion a]) where
  linked := retire_linked h.linked hsettled
  after := h.after.retire hsettled
  count := h.count_retire ha
  once := by
    rw [map_append, nodup_append]
    refine ⟨h.once, nodup_singleton _, ?_⟩
    -- An entry that was there before is of an operation that had left the list.
    intro x hx y hy hxy
    obtain ⟨e, he, rfl⟩ := mem_map.mp hx
    have hya : y = a := by simpa [Context.completion] using hy
    exact (h.written e he).2.1 (by rw [hxy, hya]; exact ha)
  written e he := by
    obtain hold | hnew := mem_append.mp he
    · obtain ⟨hlt, hout, hrest⟩ := h.written e hold
      exact ⟨hlt, fun hmem => hout ((mem_erase_queue h.linked).mp hmem).2, hrest⟩
    · rw [mem_singleton.mp hnew]
      exact ⟨h.linked.lt_next a ha,
        fun hmem => ((mem_erase_queue h.linked).mp hmem).1 rfl, hskip, rfl⟩
  removed b hb hout := by
    rw [map_append, mem_append]
    by_cases hba : b = a
    · rw [hba]
      exact .inr (.inr (mem_singleton_self _))
    · obtain hskipped | hmem :=
        h.removed b hb fun hmem => hout ((mem_erase_queue h.linked).mpr ⟨hba, hmem⟩)
      · exact .inl hskipped
      · exact .inr (.inl hmem)

end

private theorem Extends.retire (c : Context) (a : Nat) : Extends c (c.retire a) :=
  ⟨le_refl _, fun _ _ => Eq.refl _, fun _ _ => Eq.refl _⟩

/-! A submission adds an operation to the list. -/

/-- Every operation is still accounted for once a new one is queued. -/
private theorem Accounts.append {op : Op} (h : Accounts c log) (hlast : LastLinked c)
    (hfresh : Fresh c c.nextAddress op t)
    {limit : UInt32} (hlimit : c.opCount < limit) : Accounts (t.appended c.nextAddress op) log where
  linked := hfresh.prepared.linked h.linked hlast
  after := hfresh.prepared.pointsBack h.linked hlast hfresh.after h.after
  count := by
    have hone : (1 : UInt32).toNat = 1 := rfl
    have hlt := UInt32.lt_iff_toNat_lt.mp hlimit
    have hmax := limit.toNat_lt
    have hopCount : t.opCount = c.opCount := by rw [hfresh.rest]
    show (t.opCount + 1).toNat = (t.queue ++ [c.nextAddress]).length
    rw [hopCount, hfresh.prepared.queue, length_append, length_singleton, ← h.count,
      UInt32.toNat_add, hone]
    omega
  once := h.once
  written e he := by
    -- An entry that was written is about an older operation.
    obtain ⟨hlt, hout, hskip, heq⟩ := h.written e he
    have hsame : (t.appended c.nextAddress op).ops e.address = c.ops e.address := by
      rw [appended_old (by omega), hfresh.prepared.ops]
    rw [hfresh.prepared.mem_iff, hsame]
    refine ⟨Nat.lt_succ_of_lt hlt, ?_, hskip, ?_⟩
    · intro hmem
      obtain hmem | hmem := hmem
      · exact hout hmem
      · omega
    · unfold Context.completion
      rw [hsame]
      exact heq
  removed a ha hout := by
    rw [hfresh.prepared.mem_iff, not_or] at hout
    have hlt : a < c.nextAddress := by
      have : a < c.nextAddress + 1 := ha
      omega
    rw [appended_old hout.2, hfresh.prepared.ops]
    exact h.removed a hlt hout.1

end

/-! ## Calls -/

/-- The list and the completion queue agree on the entries so far. -/
structure Ledger (shape : Shape) (low published : Nat) (log : List Completion) (c : Context) :
    Prop where
  accounts : Accounts c log
  queue : Queue shape low published log c.memory

/-- What a call leaves: the entries, all of them shown to user space, with those before among
    them. -/
def Delivers (shape : Shape) (low : Nat) (log : List Completion) (c t : Context) : Prop :=
  ∃ new, Ledger shape low (log ++ new).length (log ++ new) t ∧ Extends c t

section

variable {low published : Nat} {log : List Completion} {c t : Context}

section

variable (h : Ledger shape low published log c)
include h

private theorem Ledger.of_untouched (hct : Untouched c t)
    (hqueue : Queue shape low published log t.memory) : Ledger shape low published log t :=
  ⟨h.accounts.of_untouched hct, hqueue⟩

private theorem Ledger.of_kept (hct : Kept c t) :
    Ledger shape low published log t := by
  have hmemory : t.memory = c.memory := by rw [hct.rest]
  refine ⟨h.accounts.of_kept hct, ?_⟩
  rw [hmemory]
  exact h.queue

private theorem Ledger.settle {a : Nat} (ha : a ∈ c.queue) (hct : Settles a c t) :
    Ledger shape low published log t := by
  have hmemory : t.memory = c.memory := by rw [hct.rest]
  refine ⟨h.accounts.settle ha hct, ?_⟩
  rw [hmemory]
  exact h.queue

end

/-- The check of `post` says that the queue has room. -/
theorem room_of_check {n : Nat} (hs : shape.Sized) (hle : low ≤ n)
    (hround : n ≤ low + shape.cqEntries.toNat)
    (hcheck : ¬shape.cqEntries ≤ ofNat n - ofNat low) : n < low + shape.cqEntries.toNat := by
  have hcq := hs.cqEntries_le
  rw [le_iff_toNat_le, sub_ofNat hle (by omega)] at hcheck
  omega

private theorem ofNat_length_append (log : List Completion) (e : Completion) :
    ofNat log.length + 1 = ofNat (log ++ [e]).length := by
  rw [length_append, length_singleton, ofNat_add]
  rfl

/-- The entries that the loop of `post` writes extend the ledger. -/
private theorem postLoop_ledger (hpolite : Polite shape world) (hs : shape.Sized)
    {j : Nat} (hj : j ≤ 16)
    (hpow : shape.cqEntries.toNat = 2 ^ j) (addresses : List Nat) :
    ∀ (c : Context) (log : List Completion), Ledger shape low published log c → low ≤ log.length →
      log.length ≤ low + shape.cqEntries.toNat → addresses ⊆ c.queue → addresses.Nodup →
      Returns (postLoop shape world (ofNat low) addresses (ofNat log.length)) c fun r t =>
        ∃ new, r.1 = ofNat (log ++ new).length ∧ Ledger shape low published (log ++ new) t ∧
          Extends c t := by
  induction addresses with
  | nil =>
    intro c log hc _ _ _ _
    refine (pure_iff _).mpr ⟨[], ?_, ?_, Extends.rfl⟩
    · rw [append_nil]
    · rw [append_nil]
      exact hc
  | cons address rest ih =>
    intro c log hc hlow hround hsub hnodup
    obtain ⟨hnew, hnodup⟩ := nodup_cons.mp hnodup
    have hrest : rest ⊆ c.queue := Subset.trans (subset_cons_self _ _) hsub
    have haddress : address ∈ c.queue := hsub mem_cons_self
    unfold postLoop
    rw [bind_iff]
    apply returns_deref haddress
    split
    · exact ih c log hc hlow hround hrest hnodup
    next hready =>
    have hsettled : (c.ops address).settled = true := by
      by_contra h
      exact hready (.inr h)
    by_cases hskip : (c.ops address).sqeFlags &&& sqeCqeSkipSuccess ≠ 0 ∧ 0 ≤ (c.ops address).result
    · -- no entry is written for it
      rw [if_pos hskip, bind_iff, modify_iff]
      have hledger : Ledger shape low published log (c.retire address) :=
        ⟨hc.accounts.skip haddress hsettled hskip, hc.queue⟩
      apply (ih _ log hledger hlow hround (subset_retire hrest hnew) hnodup).mono
      rintro r t ⟨new, hr, ht, hext⟩
      exact ⟨new, hr, ht, (Extends.retire c address).trans hext⟩
    rw [if_neg hskip]
    -- A full ring ends the loop; what is left stays in the queue.
    by_cases hfull : shape.cqEntries ≤ ofNat log.length - ofNat low
    · rw [if_pos hfull]
      refine (pure_iff _).mpr ⟨[], ?_, ?_, Extends.rfl⟩
      · rw [append_nil]
      · rw [append_nil]
        exact hc
    rw [if_neg hfull, bind_iff]
    have hroom := room_of_check hs hlow hround hfull
    apply (storeCqe_queue hpolite hs hj hpow address (c.ops address) hc.queue hroom).mono
    rintro _ t ⟨hct, hqueue⟩
    rw [bind_iff, modify_iff, ofNat_length_append log (c.completion address)]
    -- Writing the entry does not touch the operation it is about.
    have hentry : t.completion address = c.completion address := by
      unfold Context.completion
      rw [hct.sameOps.ops]
    rw [← hct.sameOps.queue] at haddress hrest
    rw [← hct.sameOps.ops] at hsettled hskip
    have haccounts : Accounts (t.retire address) (log ++ [c.completion address]) := by
      rw [← hentry]
      exact (hc.accounts.of_untouched hct).post haddress hsettled hskip
    have hlen : (log ++ [c.completion address]).length = log.length + 1 := by simp
    apply (ih _ _ ⟨haccounts, hqueue⟩ (by omega) (by omega) (subset_retire hrest hnew) hnodup).mono
    rintro r u ⟨new, hr, hu, hext⟩
    refine ⟨c.completion address :: new, ?_, ?_, ?_⟩
    · rw [hr, append_assoc, singleton_append]
    · rw [append_assoc, singleton_append] at hu
      exact hu
    · exact ((Extends.of_untouched hct).trans (Extends.retire t address)).trans hext

variable (hpolite : Polite shape world) (hs : shape.Sized) {j : Nat} (hj : j ≤ 16)
  (hpow : shape.cqEntries.toNat = 2 ^ j)

include hpolite hs hj hpow in
private theorem post_ledger (hc : Ledger shape low log.length log c) :
    Returns (post shape world) c fun _ t => Delivers shape low log c t := by
  unfold post
  rw [bind_iff]
  apply (loadHead_queue hpolite hs hc.queue).mono
  intro head t ⟨hct, consumed, hhead, hlow, hle, hround, hqueue⟩
  rw [bind_iff]
  apply (loadTail_queue hpolite hs hqueue).mono
  intro tail u ⟨huqueue, htu, htail⟩
  have hcu := hct.trans htu
  have hu : Ledger shape consumed log.length log u := ⟨hc.accounts.of_untouched hcu, huqueue⟩
  rw [bind_iff, get_iff, bind_iff, hhead, htail]
  -- The loop goes by the head that was read first, whatever the user stores meanwhile.
  apply (postLoop_ledger hpolite hs hj hpow u.queue u log hu hle hround (Subset.refl _)
    (hu.accounts.linked.sorted.imp ne_of_lt)).mono
  intro (tail', overflow) v ⟨new, hr, hv, huv⟩
  obtain rfl : tail' = ofNat (log ++ new).length := hr
  rw [bind_iff]
  apply (storeTail_queue hpolite hs hv.queue).mono
  intro _ w ⟨hwqueue, hvw⟩
  apply ((hpolite.tolerates hs).loadField hs (by decide) (by decide)).then_of hwqueue
  intro flags x hxqueue hwx
  apply ((hpolite.tolerates hs).storeField hs (by decide) (by decide) _ x hxqueue).mono
  intro _ y ⟨hyqueue, hxy⟩
  have hvy := (hvw.trans hwx).trans hxy
  refine ⟨new, ⟨hv.accounts.of_untouched hvy, hyqueue.mono hlow⟩, ?_⟩
  exact ((Extends.of_untouched hcu).trans huv).trans (Extends.of_untouched hvy)

private theorem submittable_ledger :
    Submittable shape (Queue shape low published log) (Ledger shape low published log) where
  linked h := h.accounts.linked
  memory h := h.queue
  access h hqueue hct := h.of_untouched hct hqueue
  append := by
    intro c t op h hlast hcount hfresh
    refine ⟨h.accounts.append hlast hfresh hcount, ?_⟩
    show Queue shape low published log t.memory
    rw [hfresh.rest]
    exact h.queue
  unlink := by
    intro c ⟨h, hqueue⟩
    have hlinked : Linked { c with linkLast := none } :=
      ⟨h.linked.sorted, h.linked.lt_next, h.linked.guarded⟩
    exact ⟨⟨hlinked, h.after, h.count, h.once, h.written, h.removed⟩, hqueue⟩

/-- What a call that writes no entry leaves. -/
theorem Ledger.delivers (h : Ledger shape low log.length log t) (hct : Extends c t) :
    Delivers shape low log c t := by
  refine ⟨[], ?_, hct⟩
  rw [append_nil]
  exact h

/-- A run loses no operation and completes none twice. -/
theorem Delivers.runRounds (hpost : ∀ {c log}, Ledger shape low log.length log c →
    Returns (post shape world) c fun _ t => Delivers shape low log c t) (hc :
    Ledger shape low log.length log c)
    (space : UInt64) (rounds : Nat) :
    Returns (runRounds shape world space rounds) c fun _ t => Delivers shape low log c t := by
  refine runRounds_keeps ?_ ?_ ?_ ?_ space rounds c (hc.delivers Extends.rfl)
  · intro t ⟨new, ht, _⟩
    exact ht.accounts.linked
  · intro t u ⟨new, ht, hct⟩ htu
    exact ⟨new, ht.of_kept htu, hct.trans (Extends.of_kept htu)⟩
  · intro a t u ⟨new, ht, hct⟩ ha htu
    exact ⟨new, ht.settle ha htu, hct.trans (Extends.of_settles htu)⟩
  · intro t ⟨new, ht, hct⟩
    apply (hpost ht).mono
    intro _ u ⟨more, hu, htu⟩
    refine ⟨new ++ more, ?_, hct.trans htu⟩
    rw [← append_assoc]
    exact hu

include hpolite hs hj hpow in
private theorem perform_delivers (hc : Ledger shape low log.length log c) (call : Call) :
    ∃ t, perform shape world c call = some t ∧ Delivers shape low log c t := by
  suffices h : Returns (call.body shape world) c fun _ t => Delivers shape low log c t by
    obtain ⟨_, t, ht, hpost⟩ := h
    exact ⟨t, by rw [perform, ht]; rfl, hpost⟩
  have hquiet :
      ∀ t, Queue shape low log.length log t.memory ∧ Untouched c t → Delivers shape low log c t :=
    fun t ht => (hc.of_untouched ht.2 ht.1).delivers (Extends.of_untouched ht.2)
  have htolerates : Tolerates shape world (Queue shape low log.length log) := hpolite.tolerates hs
  cases call with
  | submit toSubmit space =>
    simp only [Call.body, bind_iff, pure_iff]
    apply (submit_spec submittable_ledger htolerates hs hc toSubmit space).mono
    intro _ t h
    exact h.1.delivers h.2.accepted
  | run space => exact Delivers.runRounds (post_ledger hpolite hs hj hpow) hc space 8
  | post => exact post_ledger hpolite hs hj hpow hc
  | completionsReady =>
    simp only [Call.body, bind_iff, pure_iff]
    exact (htolerates.completionsReady hs c hc.queue).mono fun _ => hquiet
  | poll requested =>
    simp only [Call.body, bind_iff, pure_iff]
    exact (htolerates.poll hs requested c hc.queue).mono fun _ => hquiet

end

/-! ## Runs -/

/-- In a run from here each call returns. Before and after each of them the entries so far account
    for the operations that were accepted and those that user space has not consumed stand in the
    completion queue; the entries only become more. -/
def Accounted (shape : Shape) (world : World) : Context → List Completion → List Call → Prop
  | c, log, [] => Ledger shape 0 log.length log c
  | c, log, call :: rest => Ledger shape 0 log.length log c ∧
    ∃ t new, perform shape world c call = some t ∧ Extends c t ∧
      Accounted shape world t (log ++ new) rest

private theorem accounted_of_ledger (hpolite : Polite shape world) (hs : shape.Sized)
    {j : Nat} (hj : j ≤ 16)
    (hpow : shape.cqEntries.toNat = 2 ^ j) (calls : List Call) :
    ∀ (c : Context) (log : List Completion), Ledger shape 0 log.length log c →
      Accounted shape world c log calls := by
  induction calls with
  | nil => exact fun c log hc => hc
  | cons call rest ih =>
    intro c log hc
    obtain ⟨t, ht, new, hledger, hct⟩ := perform_delivers hpolite hs hj hpow hc call
    exact ⟨hc, t, new, ht, hct, ih t (log ++ new) hledger⟩

/-- A new ring has no operation and no entry. -/
theorem ledger_newContext {pages : Nat → Option Buffer}
    (hzero : ∀ i page, pages i = some page → page = zeros) :
    Ledger shape 0 0 [] (newContext pages) := by
  have hmemory : flat (newContext pages).memory = zeros := by
    funext i
    show (pages (i / 4096)).getD zeros (i % 4096) = zeros i
    cases hpage : pages (i / 4096) with
    | none => rfl
    | some page =>
      rw [hzero _ page hpage]
      rfl
  constructor
  · exact ⟨linked_newContext pages, nofun, rfl, nodup_nil, nofun,
      fun a ha => absurd ha (Nat.not_lt_zero a)⟩
  · refine ⟨0, le_refl _, le_refl _, le_refl _, Nat.zero_le _, ?_, ?_, nofun⟩
    · rw [hmemory]
      decide
    · rw [hmemory]
      decide

/-- However entries are submitted, run and consumed, as long as user space only advances the
    completion head up to the tail: every operation that was accepted is in the list, with links to
    operations of the list, or has left it with exactly one entry, or with none if it succeeded and
    asked for none; and no entry is overwritten before it is consumed. User space may stop at any
    access, so this is also what it finds in the middle of a call. -/
theorem completed_once (entries : UInt32) (params out : Params)
    (memory : Allocation) (ring : Context)
    (hzero : ∀ i page, memory.page i = some page → page = zeros)
    (hcreate : ioUringCreate world entries params memory = some (.ok (shape, out, ring)))
    (hpolite : Polite shape world) (calls : List Call) : Accounted shape world ring [] calls := by
  obtain ⟨created, hcreated, hspec⟩ := ioUringCreate_spec world entries params memory
  obtain ⟨hs, ⟨j, hj, hpow⟩, _, hfilled⟩ :=
    hspec shape out ring (Option.some.inj (hcreated.symm.trans hcreate))
  have hnew : Ledger shape 0 0 [] (newContext memory.page) := ledger_newContext hzero
  obtain ⟨hqueue, huntouched⟩ := ((hpolite.tolerates hs).fillFields hs _ hnew.queue).of_eq hfilled
  exact accounted_of_ledger hpolite hs hj hpow calls ring [] (hnew.of_untouched huntouched hqueue)

/-- User space that has stored a read (`IORING_OP_READ`) in the first entry and submits it twice. -/
def submittingWorld : World where
  user _ memory := fun page i => if page = 0 ∧ i = 4 then 2 else if page = 1 ∧
    i = 0 then 22 else memory page i
  kmalloc _ := true
  timespec _ _ := none
  timeUptimeNs _ := 0
  timeRealtimeNs _ := 0
  execute _ _ := ⟨5, 0, 0⟩

private theorem polite_submittingWorld {shape : Shape} (hentries : shape.cqEntries = 8) :
    Polite shape submittingWorld := by
  intro time memory
  have hsame :
      ∀ i, i ≠ 4 → i ≠ 4096 → flat (submittingWorld.user time memory) i = flat memory i := by
    intro i hi hi'
    exact (if_neg (by omega)).trans (if_neg (by omega))
  constructor
  · intro i hi
    have hcount : shape.cqEntries.toNat = 8 := by rw [hentries]; rfl
    unfold Shape.IsKernel at hi
    exact hsame i (by omega) (by omega)
  · rw [loadLe32_congr fun i h1 h2 => hsame i (by omega) (by omega), UInt32.sub_self]
    exact UInt32.zero_le

/-- Both reads are run, and each is completed once. -/
theorem completed_once_example :
    ∃ shape out ring,
      ioUringCreate submittingWorld 3 plainParams allMemory = some (.ok (shape, out, ring)) ∧
      (Steps.run (perform shape submittingWorld) ring [.submit 2 7, .run 7]).map
        (·.posted) = some 2 ∧
      Accounted shape submittingWorld ring [] [.submit 2 7, .run 7] := by
  have hposted : (ioUringCreate submittingWorld 3 plainParams allMemory).bind (fun result =>
      result.toOption.bind fun r =>
        (Steps.run (perform r.1 submittingWorld) r.2.2 [.submit 2 7, .run 7]).map
        fun c => (c.posted, r.1.cqEntries)) = some (2, 8) := by decide +kernel
  have hzero : ∀ i page, allMemory.page i = some page → page = zeros := by
    intro i page h
    exact (Option.some.inj h).symm
  cases hcreated : ioUringCreate submittingWorld 3 plainParams allMemory with
  | none => simp [hcreated] at hposted
  | some result =>
    cases result with
    | error e => simp [hcreated, Except.toOption] at hposted
    | ok r =>
      obtain ⟨shape, out, ring⟩ := r
      rw [hcreated] at hposted
      obtain ⟨c, hrun, hc⟩ := Option.map_eq_some_iff.mp hposted
      obtain ⟨hcount, hentries⟩ := Prod.mk.inj hc
      refine ⟨shape, out, ring, rfl, Option.map_eq_some_iff.mpr ⟨c, hrun, hcount⟩, ?_⟩
      exact completed_once 3 plainParams out allMemory ring hzero hcreated
        (polite_submittingWorld hentries) _

end Tunix.IoUring
