import Tunix.ForStd.Run
import Tunix.Spec.RingMemory

/-!
# A ring stays inside its memory

`Linked` is the invariant of the list of operations under which the pointers in it are to operations
that are still there. Steps keep what it depends on (`Frame`), settling and posting keep it
themselves, and a submission adds operations that meet it.

The main result is `ring_contained`: whatever user space stores before each access, no call leaves
the memory of the ring, and `io_uring_submit` makes at most as many operations as the ring has
entries.
-/

namespace Tunix.IoUring

open Bytes List Returns

variable {c t : Context} {pointer : Op → Option Nat} {op : Op} {a address : Nat}

variable {shape : Shape} {world : World} {α : Type}

/-! ## The list of operations -/

/-- A pointer of the operations is to one before in the list that is not settled yet. -/
def PointsBack (c : Context) (pointer : Op → Option Nat) : Prop :=
  ∀ i ∈ c.queue, ∀ g, pointer (c.ops i) = some g → g ∈ c.queue ∧ g < i ∧
    (c.ops g).settled = false ∧ (c.ops g).opcode ≠ opLinkTimeout

/-- The operations are in the order of their addresses, and a guarded operation is one before that
    is not settled yet. -/
structure Linked (c : Context) : Prop where
  sorted : c.queue.Pairwise (· < ·)
  lt_next : ∀ i ∈ c.queue, i < c.nextAddress
  guarded : PointsBack c Op.guard

/-- What a step leaves alone: the list, and of an operation what the links depend on. -/
structure Frame (c t : Context) : Prop where
  queue : t.queue = c.queue
  nextAddress : t.nextAddress = c.nextAddress
  guard : ∀ i, (t.ops i).guard = (c.ops i).guard
  settled : ∀ i, (t.ops i).settled = (c.ops i).settled
  opcode : ∀ i, (t.ops i).opcode = (c.ops i).opcode

/-- An access to the ring changes no operation. -/
theorem Untouched.frame (h : Untouched c t) : Frame c t where
  queue := h.sameOps.queue
  nextAddress := h.sameOps.nextAddress
  guard i := by rw [h.sameOps.ops]
  settled i := by rw [h.sameOps.ops]
  opcode i := by rw [h.sameOps.ops]

/-- Pointers that stay point back still. -/
theorem PointsBack.of_frame (hc : PointsBack c pointer) (h : Frame c t)
    (hpointer : ∀ i, pointer (t.ops i) = pointer (c.ops i)) : PointsBack t pointer := by
  intro i hi g hg
  rw [h.queue] at hi
  rw [hpointer] at hg
  rw [h.queue, h.settled, h.opcode]
  exact hc i hi g hg

/-- Links that stay are links still. -/
theorem Linked.of_frame (hc : Linked c) (h : Frame c t) : Linked t where
  sorted := by
    rw [h.queue]
    exact hc.sorted
  lt_next := by
    rw [h.queue, h.nextAddress]
    exact hc.lt_next
  guarded := PointsBack.of_frame hc.guarded h h.guard

/-- The links of an operation, and what its completion tells user space. -/
structure SameLinks (op op' : Op) : Prop where
  after : op'.after = op.after
  guard : op'.guard = op.guard
  settled : op'.settled = op.settled
  opcode : op'.opcode = op.opcode
  userData : op'.userData = op.userData
  sqeFlags : op'.sqeFlags = op.sqeFlags

/-- An operation has its own links. -/
theorem SameLinks.rfl :
    SameLinks op op := ⟨Eq.refl _, Eq.refl _, Eq.refl _, Eq.refl _, Eq.refl _, Eq.refl _⟩

private theorem SameLinks.trans {x y z : Op} (h : SameLinks x y) (h' : SameLinks y z) :
    SameLinks x z :=
  ⟨h'.after.trans h.after, h'.guard.trans h.guard, h'.settled.trans h.settled,
    h'.opcode.trans h.opcode,
    h'.userData.trans h.userData, h'.sqeFlags.trans h.sqeFlags⟩

private theorem sameLinks_cancel (op : Op) : SameLinks op op.cancel := by
  unfold Op.cancel
  split_ifs <;> exact ⟨rfl, rfl, rfl, rfl, rfl, rfl⟩

/-- What a step changes: operations of the list, in other things than their links. -/
structure Kept (c t : Context) : Prop where
  rest : t = { c with ops := t.ops, clock := t.clock }
  links : ∀ i, SameLinks (c.ops i) (t.ops i)
  gone : ∀ i, i ∉ c.queue → t.ops i = c.ops i

/-- The queue is the same. -/
theorem Kept.queue (h : Kept c t) : t.queue = c.queue := by rw [h.rest]

/-- Nothing has changed. -/
theorem Kept.rfl : Kept c c := ⟨Eq.refl _, fun _ => SameLinks.rfl, fun _ _ => Eq.refl _⟩

/-- One change behind another. -/
theorem Kept.trans {u : Context} (h : Kept c t) (h' : Kept t u) : Kept c u where
  rest := by rw [h'.rest, h.rest]
  links i := (h.links i).trans (h'.links i)
  gone i hi := (h'.gone i (by rw [h.queue]; exact hi)).trans (h.gone i hi)

/-- Links and queue are the same. -/
theorem Kept.frame (h : Kept c t) : Frame c t where
  queue := h.queue
  nextAddress := by rw [h.rest]
  guard i := (h.links i).guard
  settled i := (h.links i).settled
  opcode i := (h.links i).opcode

/-- An operation of the list may change in everything but its links. -/
theorem kept_setOp (haddress : address ∈ c.queue)
    (hop : SameLinks (c.ops address) op) : Kept c (c.setOp address op) := by
  have hops : ∀ i, (c.setOp address op).ops i = if i = address then op else c.ops i := fun _ => rfl
  refine ⟨rfl, fun i => ?_, fun i hi => ?_⟩
  · rw [hops]
    by_cases h : i = address
    · rw [if_pos h, h]
      exact hop
    · rw [if_neg h]
      exact SameLinks.rfl
  · have hne : i ≠ address := fun h => hi (h ▸ haddress)
    rw [hops, if_neg hne]

private theorem kept_finish (haddress : address ∈ c.queue) (result : Int32) :
    Kept c (c.finish address result) := kept_setOp haddress ⟨rfl, rfl, rfl, rfl, rfl, rfl⟩

/-- Cancelling changes no link. -/
theorem kept_cancel (haddress : address ∈ c.queue) : Kept c (c.cancel address) :=
  kept_setOp haddress (sameLinks_cancel _)

private theorem kept_cancelFrom (request : Nat) (items : List Nat) :
    ∀ (count : Int32) (c : Context), items ⊆ c.queue →
    Kept c (Context.cancelFrom request items count c).2 := by
  induction items with
  | nil => exact fun _ _ _ => Kept.rfl
  | cons item rest ih =>
    intro count c hsub
    have hitem : item ∈ c.queue := hsub mem_cons_self
    have hrest : rest ⊆ c.queue := Subset.trans (subset_cons_self _ _) hsub
    unfold Context.cancelFrom
    split_ifs
    · exact kept_cancel hitem
    · exact (kept_cancel hitem).trans (ih _ _ hrest)
    · exact ih count c hrest

private theorem kept_runCancel (c : Context) (request : Nat) : Kept c (c.runCancel request).2 := by
  have h := kept_cancelFrom request c.queue 0 c (Subset.refl _)
  unfold Context.runCancel
  dsimp only
  split_ifs <;> exact h

private theorem kept_runTimeoutRemove (c : Context) (request : Nat) :
    Kept c (c.runTimeoutRemove request).2 := by
  unfold Context.runTimeoutRemove
  cases htarget : c.findTarget request opTimeout with
  | none => exact Kept.rfl
  | some item =>
    have hitem : item ∈ c.queue := mem_of_find?_eq_some htarget
    split_ifs
    · exact kept_setOp hitem ⟨rfl, rfl, rfl, rfl, rfl, rfl⟩
    · exact kept_cancel hitem

private theorem kept_runPollRemove (c : Context) (request : Nat) :
    Kept c (c.runPollRemove request).2 := by
  unfold Context.runPollRemove
  cases htarget : c.findTarget request opPollAdd with
  | none => exact Kept.rfl
  | some item => exact kept_cancel (mem_of_find?_eq_some htarget)

/-! ## Steps -/

section

variable (h : address ∈ c.queue)
include h

/-- An operation of the queue can be used. -/
theorem returns_deref {post : Op → Context → Prop}
    (hpost : post (c.ops address) c) : Returns (deref address) c post := by
  unfold deref
  rw [bind_iff, get_iff, if_pos h]
  exact (pure_iff _).mpr hpost

/-- Finishing an operation changes no link. -/
theorem returns_finish (result : Int32) (a : α) :
    Returns (do modify fun c => c.finish address result; pure a : RingM α) c
      fun _ t => Kept c t := by
  simp only [bind_iff, modify_iff, pure_iff]
  exact kept_finish h result

private theorem returns_setPending (a : α) :
    Returns (do setPending address; pure a : RingM α) c fun _ t => Kept c t := by
  simp only [setPending, bind_iff, modify_iff, pure_iff]
  exact kept_setOp h ⟨rfl, rfl, rfl, rfl, rfl, rfl⟩

private theorem returns_finishRequest
    {f : Context → Nat → Int32 × Context} (hf : ∀ c request, Kept c (f c request).2) (a : α) :
    Returns (do finishRequest address f; pure a : RingM α) c fun _ t => Kept c t := by
  simp only [finishRequest, bind_iff, modify_iff, pure_iff]
  exact (hf c address).trans (kept_finish (by rw [(hf c address).queue]; exact h) _)

end

/-- The computation asks the world and changes nothing. -/
def Asks {α : Type} (m : RingM α) : Prop :=
  ∀ s, Returns m s fun _ t => t = { s with clock := t.clock }

private theorem Asks.pure (a : α) : Asks (Pure.pure a : RingM α) := fun _ => (pure_iff a).mpr rfl

private theorem Asks.bind {β : Type} {m : RingM α} {f : α → RingM β} (hm : Asks m)
    (hf : ∀ a, Asks (f a)) :
    Asks (m >>= f) := by
  intro s
  rw [bind_iff]
  apply (hm s).mono
  intro a t hst
  apply (hf a t).mono
  intro b u htu
  rw [htu, hst]

private theorem asks_tick : Asks tick := by
  intro s
  simp only [tick, bind_iff, get_iff, modify_iff, pure_iff]

private theorem asks_readNow (now : UInt64) : Asks (readNow world now) := by
  unfold readNow
  split_ifs
  · exact Asks.pure _
  · exact asks_tick.bind fun _ => Asks.pure _

private theorem Asks.then_kept {β : Type} {m : RingM α} {f : α → RingM β}
    {s : Context} (hm : Asks m)
    (hf : ∀ a t, t = { s with clock := t.clock } → Returns (f a) t fun _ u => Kept t u) :
    Returns (m >>= f) s fun _ u => Kept s u := by
  rw [bind_iff]
  apply (hm s).mono
  intro a t hst
  have hkept : Kept s t := by
    refine ⟨by rw [hst], fun i => ?_, fun i _ => ?_⟩ <;> rw [hst]
    exact SameLinks.rfl
  exact (hf a t hst).mono fun b u htu => hkept.trans htu

/-- The time is read. An operation whose deadline has passed does something, and the others wait
    on. -/
theorem deadline_kept (haddress : address ∈ c.queue) (deadline now : UInt64)
    {expire : UInt64 → RingM (Bool × UInt64)}
    (hexpire : ∀ now t, t = { c with clock := t.clock } →
      Returns (expire now) t fun _ u => Kept t u) :
    Returns (do
      let now ← readNow world now
      if deadline ≤ now then expire now
      else do
        setPending address
        pure (false, now)) c fun _ t => Kept c t := by
  apply (asks_readNow now).then_kept
  intro now' t hct
  split_ifs
  · exact hexpire now' t hct
  · exact returns_setPending (by rw [hct]; exact haddress) _

private theorem stepTimeout_kept (haddress : address ∈ c.queue) (op : Op) (now : UInt64) :
    Returns (stepTimeout world address op now) c fun _ t => Kept c t := by
  unfold stepTimeout
  rw [bind_iff, get_iff]
  split_ifs
  · exact returns_finish haddress _ _
  · exact deadline_kept haddress _ now fun _ t hct =>
      returns_finish (by rw [hct]; exact haddress) _ _

private theorem stepLinkTimeout_kept (hc : Linked c) (haddress : address ∈ c.queue) (now : UInt64) :
    Returns (stepLinkTimeout world address (c.ops address) now) c fun _ t => Kept c t := by
  unfold stepLinkTimeout
  cases hguard : (c.ops address).guard with
  | none =>
    simp only [pure_bind]
    exact deadline_kept haddress _ now fun _ t hct =>
      returns_finish (by rw [hct]; exact haddress) _ _
  | some guarded =>
    -- The guarded operation is still in the list, here and after the time was read.
    have hguarded : guarded ∈ c.queue := (hc.guarded address haddress guarded hguard).1
    simp only [bind_iff, pure_iff]
    apply returns_deref hguarded
    split_ifs
    · exact (pure_iff _).mpr Kept.rfl
    refine deadline_kept haddress _ now fun _ t hct => ?_
    have hmem : address ∈ t.queue := by rw [hct]; exact haddress
    have hguarded' : guarded ∈ t.queue := by rw [hct]; exact hguarded
    simp only [bind_iff, pure_iff, modify_iff]
    apply returns_deref hguarded'
    exact (kept_cancel hguarded').trans (kept_finish (c := t.cancel guarded) hmem _)

private theorem stepExecute_kept (haddress : address ∈ c.queue) (space : UInt64) :
    Returns (stepExecute world address (c.ops address) space) c fun _ t => Kept c t := by
  unfold stepExecute
  split_ifs
  · exact (pure_iff _).mpr Kept.rfl
  apply asks_tick.then_kept
  intro time t hct
  rw [bind_iff, modify_iff]
  have hmem : address ∈ t.queue := by rw [hct]; exact haddress
  -- What `execute` leaves in the operation is not what links it.
  have hset : Kept t (t.setOp address { c.ops address with
      watch := (world.execute time (c.ops address)).watch
      attempts := (world.execute time (c.ops address)).attempts }) :=
    kept_setOp hmem (by rw [hct]; exact ⟨rfl, rfl, rfl, rfl, rfl, rfl⟩)
  split
  · exact (returns_setPending (by rw [hset.queue]; exact hmem) _).mono fun _ _ h => hset.trans h
  · exact (returns_finish (by rw [hset.queue]; exact hmem) _ _).mono fun _ _ h => hset.trans h

/-- A step of an operation of the list uses no operation that was freed. -/
theorem step_kept (hc : Linked c) (haddress : address ∈ c.queue)
    (space now : UInt64) : Returns (step world address space now) c fun _ t => Kept c t := by
  unfold step
  rw [bind_iff]
  apply returns_deref haddress
  rw [bind_iff, get_iff]
  have hsame : ∀ a, Returns (pure a : RingM (Bool × UInt64)) c fun _ t => Kept c t :=
    fun a => (pure_iff a).mpr Kept.rfl
  -- The cases are those of the source: done or waiting, cancelled, drained, and then the opcodes.
  apply ite fun _ => hsame _
  intro _
  apply ite fun _ => returns_finish haddress _ _
  intro _
  apply ite fun _ => hsame _
  intro _
  apply ite fun _ => returns_finish haddress _ _
  intro _
  apply ite fun _ => stepTimeout_kept haddress _ now
  intro _
  apply ite fun _ => stepLinkTimeout_kept hc haddress now
  intro _
  apply ite fun _ => returns_finishRequest haddress kept_runTimeoutRemove _
  intro _
  apply ite fun _ => returns_finishRequest haddress kept_runCancel _
  intro _
  apply ite fun _ => returns_finishRequest haddress kept_runPollRemove _
  intro _
  rw [bind_iff]
  apply (stepExecute_kept haddress space).mono
  intro progressed t hct
  exact (pure_iff _).mpr hct

private theorem stepAll_kept (space : UInt64) (addresses : List Nat) :
    ∀ (c : Context) (progressed : Bool) (now : UInt64), Linked c → addresses ⊆ c.queue →
      Returns (stepAll world space addresses progressed now) c fun _ t => Kept c t := by
  induction addresses with
  | nil => exact fun c _ _ _ _ => (pure_iff _).mpr Kept.rfl
  | cons address rest ih =>
    intro c progressed now hc hsub
    unfold stepAll
    rw [bind_iff]
    apply (step_kept hc (hsub mem_cons_self) space now).mono
    intro moved t hct
    have hrest : rest ⊆ t.queue := by
      rw [hct.queue]
      exact Subset.trans (subset_cons_self _ _) hsub
    exact (ih t _ _ (hc.of_frame hct.frame) hrest).mono fun _ u htu => hct.trans htu

/-! ## Settling -/

/-- In a growing list what is above a member comes after it. -/
theorem mem_after {l : List Nat} (hl : l.Pairwise (· < ·)) {i : Nat} (ha : a ∈ l) (hi : i ∈ l)
    (hlt : a < i) : i ∈ (l.dropWhile (· ≠ a)).drop 1 := by
  induction l with
  | nil => cases ha
  | cons x rest ih =>
    obtain ⟨hx, hrest⟩ := pairwise_cons.mp hl
    by_cases hxa : x = a
    · have hmem : i ∈ rest := (mem_cons.mp hi).resolve_left (by omega)
      simpa [hxa] using hmem
    · have ha' : a ∈ rest := (mem_cons.mp ha).resolve_left (Ne.symm hxa)
      have hlt' := hx a ha'
      have hi' : i ∈ rest := (mem_cons.mp hi).resolve_left (by omega)
      simpa [hxa] using ih hrest ha' hi'

/-- The member itself does not. -/
theorem notMem_after {l : List Nat} (hl : l.Pairwise (· < ·)) :
    a ∉ (l.dropWhile (· ≠ a)).drop 1 := by
  induction l with
  | nil => simp
  | cons x rest ih =>
    obtain ⟨hx, hrest⟩ := pairwise_cons.mp hl
    by_cases hxa : x = a
    · have hnot : a ∉ rest := fun hmem => lt_irrefl a (hxa ▸ hx a hmem)
      simpa [hxa] using hnot
    · simpa [hxa] using ih hrest

/-- The operation no longer names the one that is done. -/
structure Unlinked (done : Nat) (op op' : Op) : Prop where
  after : op'.after = if op.after = some done then none else op.after
  guard : op'.guard = if op.guard = some done then none else op.guard
  settled : op'.settled = op.settled
  opcode : op'.opcode = op.opcode
  userData : op'.userData = op.userData
  sqeFlags : op'.sqeFlags = op.sqeFlags

private theorem unlinked_settle (op : Op) (done : Nat) (cancelled : Bool) :
    Unlinked done op ((op.settleAfter done cancelled).settleGuard done) := by
  have hafter :
      (op.settleAfter done cancelled).after = (if op.after = some done then none else op.after) ∧
      (op.settleAfter done cancelled).guard = op.guard ∧
        (op.settleAfter done cancelled).settled = op.settled ∧
      (op.settleAfter done cancelled).opcode = op.opcode ∧
        (op.settleAfter done cancelled).userData = op.userData ∧
      (op.settleAfter done cancelled).sqeFlags = op.sqeFlags := by
    unfold Op.settleAfter
    split_ifs <;> exact ⟨rfl, rfl, rfl, rfl, rfl, rfl⟩
  obtain ⟨hafter, hguard, hsettled, hopcode, hdata, hflags⟩ := hafter
  unfold Op.settleGuard
  rw [hguard]
  split_ifs with hnamed hdone
  · exact ⟨hafter, by rw [if_pos hnamed], hsettled, hopcode, hdata, hflags⟩
  · exact ⟨hafter, by rw [if_pos hnamed]; rfl, hsettled, hopcode, hdata, hflags⟩
  · exact ⟨hafter, by rw [if_neg hnamed, hguard], hsettled, hopcode, hdata, hflags⟩

private theorem Unlinked.trans {done : Nat} {x y z : Op} (h : Unlinked done x y)
    (h' : Unlinked done y z) :
    Unlinked done x z where
  after := by
    rw [h'.after, h.after]
    split_ifs <;> simp_all
  guard := by
    rw [h'.guard, h.guard]
    split_ifs <;> simp_all
  settled := h'.settled.trans h.settled
  opcode := h'.opcode.trans h.opcode
  userData := h'.userData.trans h.userData
  sqeFlags := h'.sqeFlags.trans h.sqeFlags

/-- The loop of `settle_links` clears the pointers to the operation in those it goes over. -/
theorem settleFold_spec (done : Nat) (failed : Bool) (items : List Nat) (c : Context) :
    ∃ ops, items.foldl (fun c item => c.settleItem done failed item) c = { c with ops := ops } ∧
      ∀ i, (i ∈ items → Unlinked done (c.ops i) (ops i)) ∧ (i ∉ items → ops i = c.ops i) := by
  induction items generalizing c with
  | nil => exact ⟨c.ops, rfl, fun i => ⟨nofun, fun _ => rfl⟩⟩
  | cons item rest ih =>
    have hitem : ∀ j, (c.settleItem done failed item).ops j = if j = item then
        ((c.ops item).settleAfter done (failed || (c.ops done).cancelled)).settleGuard
          done else c.ops j :=
      fun _ => rfl
    obtain ⟨ops, hfold, hops⟩ := ih (c.settleItem done failed item)
    refine ⟨ops, hfold, fun i => ?_⟩
    have hrest := hops i
    by_cases heq : i = item
    · subst heq
      rw [hitem, if_pos rfl] at hrest
      refine ⟨fun _ => ?_, fun hi => absurd mem_cons_self hi⟩
      by_cases hmem : i ∈ rest
      · exact (unlinked_settle ..).trans (hrest.1 hmem)
      · rw [hrest.2 hmem]
        exact unlinked_settle ..
    · rw [hitem, if_neg heq] at hrest
      simpa [heq] using hrest

/-- What settling an operation of the list does: the operation is marked, those after it no longer
    name it, and nothing names a timeout. -/
structure Settles (a : Nat) (c t : Context) : Prop where
  rest : t = { c with ops := t.ops }
  self : t.ops a = { c.ops a with settled := true }
  other : ∀ i, i ≠ a → t.ops i = c.ops i ∨ i ∈ c.queue ∧ Unlinked a (c.ops i) (t.ops i)
  later : (c.ops a).opcode ≠ opLinkTimeout → ∀ i ∈ c.queue, a < i → Unlinked a (c.ops i) (t.ops i)

/-- Settling an operation lets go of what was linked to it. -/
private theorem settleLinks_settles (hc : Linked c) (ha : a ∈ c.queue) :
    Settles a c ((c.setOp a { c.ops a with settled := true }).settleLinks a) := by
  obtain ⟨d, hd⟩ : ∃ d, d = c.setOp a { c.ops a with settled := true } := ⟨_, rfl⟩
  have hdrest : d = { c with ops := d.ops } := by rw [hd]; rfl
  have hdself : d.ops a = { c.ops a with settled := true } := hd ▸ if_pos rfl
  have hdother : ∀ i, i ≠ a → d.ops i = c.ops i := fun i hi => hd ▸ if_neg hi
  have hdqueue : d.queue = c.queue := by rw [hdrest]
  rw [← hd]
  unfold Context.settleLinks
  dsimp only
  split
  · next hlink =>
    rw [hdself] at hlink
    exact ⟨hdrest, hdself, fun i hi => .inl (hdother i hi), fun hopcode => absurd hlink hopcode⟩
  -- A failed operation cancels what was linked behind it, unless the link is a hard one.
  generalize ((d.ops a).result < 0 && (d.ops a).sqeFlags &&& sqeIoHardlink == 0) = failed
  rw [hdqueue]
  obtain ⟨items, hitems⟩ : ∃ items, items = (c.queue.dropWhile (· ≠ a)).drop 1 := ⟨_, rfl⟩
  rw [← hitems]
  obtain ⟨ops, hfold, hops⟩ := settleFold_spec a failed items d
  rw [hfold]
  refine ⟨by rw [hdrest], ?_, fun i hi => ?_, fun _ i hi hlt => ?_⟩
  · -- the operation itself is not among those after it
    have hself : a ∉ items := hitems ▸ notMem_after hc.sorted
    exact ((hops a).2 hself).trans hdself
  · have hsame := hops i
    rw [hdother i hi] at hsame
    by_cases hmem : i ∈ items
    · have hqueue : i ∈ c.queue := (dropWhile_sublist _).subset (mem_of_mem_drop (hitems ▸ hmem))
      exact .inr ⟨hqueue, hsame.1 hmem⟩
    · exact .inl (hsame.2 hmem)
  · have hmem : i ∈ items := hitems ▸ mem_after hc.sorted ha hi hlt
    rw [← hdother i (by omega)]
    exact (hops i).1 hmem

/-- Pointers to operations before that are not settled stay such when one of them is settled. -/
theorem Settles.pointsBack (h : Settles a c t)
    (hpointer : ∀ {op op'}, Unlinked a op op' →
      pointer op' = if pointer op = some a then none else pointer op)
    (hself : pointer (t.ops a) = pointer (c.ops a)) (hgood : PointsBack c pointer) :
    PointsBack t pointer := by
  have hqueue : t.queue = c.queue := by rw [h.rest]
  unfold PointsBack
  rw [hqueue]
  intro i hi g hg
  -- the pointer was there before, and it is not to the operation that is settled
  have hbefore : pointer (c.ops i) = some g ∧ g ≠ a := by
    by_cases hia : i = a
    · rw [hia, hself] at hg
      rw [hia]
      have hlt := (hgood a (hia ▸ hi) g hg).2.1
      exact ⟨hg, by omega⟩
    have hsame : pointer (c.ops i) = some g := by
      obtain heq | ⟨_, hunlinked⟩ := h.other i hia
      · rw [heq] at hg
        exact hg
      · rw [hpointer hunlinked] at hg
        split_ifs at hg
        exact hg
    refine ⟨hsame, ?_⟩
    intro hga
    subst hga
    obtain ⟨_, hlt, _, hopcode⟩ := hgood i hi g hsame
    rw [hpointer (h.later hopcode i hi hlt), if_pos hsame] at hg
    exact nomatch hg
  obtain ⟨hmem, hlt, hsettled, hopcode⟩ := hgood i hi g hbefore.1
  refine ⟨hmem, hlt, ?_⟩
  obtain heq | ⟨_, hunlinked⟩ := h.other g hbefore.2
  · rw [heq]
    exact ⟨hsettled, hopcode⟩
  · rw [hunlinked.settled, hunlinked.opcode]
    exact ⟨hsettled, hopcode⟩

/-- Settling an operation keeps the links good: no operation that it guarded names it any more. -/
theorem Settles.linked (h : Settles a c t) (hc : Linked c) : Linked t where
  sorted := by
    rw [h.rest]
    exact hc.sorted
  lt_next := by
    rw [h.rest]
    exact hc.lt_next
  guarded := h.pointsBack (fun hunlinked => hunlinked.guard) (by rw [h.self]) hc.guarded

/-- What settling one operation keeps, settling all of them does. -/
theorem settleAll_keeps {good : Context → Prop} (hlinked : ∀ {c}, good c → Linked c)
    (hsettle : ∀ {a c t}, good c → a ∈ c.queue → Settles a c t → good t) (addresses : List Nat) :
    ∀ (c : Context) (progressed : Bool), good c → addresses ⊆ c.queue →
      Returns (settleAll addresses progressed) c fun _ t => good t := by
  induction addresses with
  | nil => exact fun c _ hc _ => (pure_iff _).mpr hc
  | cons address rest ih =>
    intro c progressed hc hsub
    have haddress : address ∈ c.queue := hsub mem_cons_self
    have hrest : rest ⊆ c.queue := Subset.trans (subset_cons_self _ _) hsub
    unfold settleAll
    rw [bind_iff]
    apply returns_deref haddress
    split_ifs
    · exact ih c progressed hc hrest
    rw [bind_iff, modify_iff]
    have hsettles := settleLinks_settles (hlinked hc) haddress
    exact ih _ _ (hsettle hc haddress hsettles) (by rw [hsettles.rest]; exact hrest)

/-! ## Posting -/

/-- A settled operation may be freed: nothing points to it. -/
theorem PointsBack.retire (hc : PointsBack c pointer) (hsettled : (c.ops a).settled = true) :
    PointsBack (c.retire a) pointer := by
  intro i hi g hg
  obtain ⟨hmem, hlt, hunsettled, hopcode⟩ := hc i (mem_of_mem_erase hi) g hg
  have hga : g ≠ a := by
    intro h
    rw [h, hsettled] at hunsettled
    cases hunsettled
  exact ⟨(mem_erase_of_ne hga).mpr hmem, hlt, hunsettled, hopcode⟩

/-- A settled operation can leave the list. -/
theorem retire_linked (hc : Linked c) (hsettled : (c.ops a).settled = true) :
    Linked (c.retire a) where
  sorted := hc.sorted.sublist erase_sublist
  lt_next i hi := hc.lt_next i (mem_of_mem_erase hi)
  guarded := PointsBack.retire hc.guarded hsettled

/-- The others are still there. -/
theorem subset_retire {l : List Nat} (h : l ⊆ c.queue) (ha : a ∉ l) : l ⊆ (c.retire a).queue := by
  intro i hi
  have hne : i ≠ a := fun h => ha (h ▸ hi)
  exact (mem_erase_of_ne hne).mpr (h hi)

/-- An entry is written inside the ring. -/
theorem Shape.Sized.storeCqe (hs : shape.Sized) (tail : UInt32) (op : Op) :
    Keeps (fun _ => True) (storeCqe shape world tail op) := by
  have hcqe := hs.holds_cqe tail
  have hstore : ∀ {p : Pointer} {size : Nat}, shape.Holds p size → ∀ f : Buffer → Buffer,
      Keeps (fun _ => True)
        (do access shape world p size; modify fun c => c.setPage p.page.toNat f) :=
    fun hholds _ => (stable_true.access hholds).bind fun _ _ _ => (modify_iff _).mpr ⟨trivial, rfl⟩
  apply (@hstore _ 8 ⟨hcqe.1, by have := hcqe.2; omega⟩ _).bind
  intro _
  apply (hstore (hcqe.part 8 (by decide)) _).bind
  intro _
  exact hstore (hcqe.part 12 (by decide)) _

private theorem Shape.Sized.postLoop_linked (hs : shape.Sized) (head : UInt32)
    (addresses : List Nat) :
    ∀ (c : Context) (tail : UInt32), Linked c → addresses ⊆ c.queue → addresses.Nodup →
      Returns (postLoop shape world head addresses tail) c fun _ t => Linked t := by
  induction addresses with
  | nil => exact fun c _ hc _ _ => (pure_iff _).mpr hc
  | cons address rest ih =>
    intro c tail hc hsub hnodup
    obtain ⟨hnew, hnodup⟩ := nodup_cons.mp hnodup
    have hrest : rest ⊆ c.queue := Subset.trans (subset_cons_self _ _) hsub
    unfold postLoop
    rw [bind_iff]
    apply returns_deref (hsub mem_cons_self)
    split
    · exact ih c tail hc hrest hnodup
    next hready =>
    have hsettled : (c.ops address).settled = true := by
      by_contra h
      exact hready (.inr h)
    split_ifs
    · rw [bind_iff, modify_iff]
      exact ih _ tail (retire_linked hc hsettled) (subset_retire hrest hnew) hnodup
    · exact (pure_iff _).mpr hc
    · apply (hs.storeCqe tail _).then_of trivial
      intro _ t _ hct
      rw [← hct.sameOps.queue] at hrest
      rw [← hct.sameOps.ops] at hsettled
      rw [bind_iff, modify_iff]
      exact ih _ _ (retire_linked (hc.of_frame hct.frame) hsettled)
        (subset_retire hrest hnew) hnodup

private theorem Shape.Sized.post_linked (hs : shape.Sized) (hc : Linked c) :
    Returns (post shape world) c fun _ t => Linked t := by
  unfold post
  apply (tolerates_true.loadField hs (by decide) (by decide)).then_of trivial
  intro head t _ hct
  apply (tolerates_true.loadField hs (by decide) (by decide)).then_of trivial
  intro tail u _ htu
  have hu : Linked u := hc.of_frame (hct.trans htu).frame
  rw [bind_iff, get_iff, bind_iff]
  apply (hs.postLoop_linked head u.queue u tail hu (Subset.refl _) (hu.sorted.imp ne_of_lt)).mono
  intro result v hv
  rw [bind_iff]
  apply (store32_good stable_true (hs.holds_field (by decide) (by decide)) _ trivial).mono
  intro _ w ⟨hvw, _⟩
  apply (tolerates_true.loadField hs (by decide) (by decide)).then_of trivial
  intro flags x _ hwx
  apply (tolerates_true.storeField hs (by decide) (by decide) _ x trivial).mono
  intro _ y ⟨_, hxy⟩
  exact hv.of_frame ((hvw.trans hwx).trans hxy).frame

/-- What the parts of a round keep, the rounds of a run do: they use no operation that was freed. -/
theorem runRounds_keeps {good : Context → Prop} (hlinked : ∀ {c}, good c → Linked c)
    (hkept : ∀ {c t}, good c → Kept c t → good t)
    (hsettle : ∀ {a c t}, good c → a ∈ c.queue → Settles a c t → good t)
    (hpost : ∀ {c}, good c → Returns (post shape world) c fun _ t => good t)
    (space : UInt64) (rounds : Nat) :
    ∀ c : Context, good c → Returns (runRounds shape world space rounds) c fun _ t => good t := by
  induction rounds with
  | zero => exact fun c hc => (pure_iff _).mpr hc
  | succ rounds ih =>
    intro c hc
    unfold runRounds
    rw [bind_iff, get_iff, bind_iff]
    apply (stepAll_kept space c.queue c false 0 (hlinked hc) (Subset.refl _)).mono
    intro moved t hct
    rw [bind_iff, get_iff, bind_iff]
    apply (settleAll_keeps hlinked hsettle t.queue t moved (hkept hc hct) (Subset.refl _)).mono
    intro progressed u hu
    rw [bind_iff, get_iff, bind_iff]
    apply (hpost hu).mono
    intro _ v hv
    rw [bind_iff, get_iff]
    split_ifs
    · exact (pure_iff _).mpr hv
    · exact ih v hv

/-! ## Submitting -/

/-- While entries are submitted, the operation that the next one is linked to is in the list. -/
def LastLinked (c : Context) : Prop := ∀ g, c.linkLast = some g →
  g ∈ c.queue ∧ (c.ops g).settled = false ∧ (c.ops g).opcode ≠ opLinkTimeout

private theorem LastLinked.of_untouched (hc : LastLinked c) (h : Untouched c t) : LastLinked t := by
  intro g hg
  rw [h.sameOps.linkLast] at hg
  rw [h.sameOps.queue, h.sameOps.ops]
  exact hc g hg

private theorem Asks.ite {cond : Prop} [Decidable cond] {m m' : RingM α} (hm : Asks m)
    (hm' : Asks m') :
    Asks (if cond then m else m') := by
  split
  · exact hm
  · exact hm'

private theorem asks_readDeadline (userTime : UInt64) (flags : UInt32) :
    Asks (readDeadline world userTime flags) := by
  apply asks_tick.bind
  intro time
  cases (if userTime = 0 then none else world.timespec time userTime) with
  | none => exact Asks.pure _
  | some value =>
    apply Asks.ite (Asks.pure _)
    intro now
    apply Asks.ite (Asks.pure _)
    exact Asks.ite (asks_tick.bind fun _ => Asks.pure _) (Asks.pure _)

/-- The checks of `prepare` leave the links of the operation alone. -/
theorem prepareTimeout_links (c : Context) (op : Op) :
    Returns (prepareTimeout world op) c fun op' t =>
    t = { c with clock := t.clock } ∧ SameLinks op op' := by
  -- Every way out returns the operation with the same links.
  have hpure :
      ∀ op' t, t = { c with clock := t.clock } → SameLinks op op' → Returns (pure op' : RingM Op) t
      fun op' t => t = { c with clock := t.clock } ∧ SameLinks op op' :=
    fun op' t hct hlinks => (pure_iff op').mpr ⟨hct, hlinks⟩
  have hdone :
      ∀ status t, t = { c with clock := t.clock } → Returns (pure (op.finish status) : RingM Op) t
      fun op' t => t = { c with clock := t.clock } ∧ SameLinks op op' :=
    fun status t hct => hpure _ t hct ⟨rfl, rfl, rfl, rfl, rfl, rfl⟩
  unfold prepareTimeout
  rw [bind_iff, get_iff]
  apply Returns.ite
  · intro _
    apply ite fun _ => hdone _ _ rfl
    intro _
    rw [bind_iff]
    apply (asks_readDeadline _ _ c).mono
    rintro (e | deadline) t hct
    · exact hdone _ _ hct
    · exact hpure _ t hct ⟨rfl, rfl, rfl, rfl, rfl, rfl⟩
  intro _
  apply Returns.ite
  · intro _
    apply ite fun _ => hdone _ _ rfl
    intro _
    refine ite (fun _ => ?_) fun _ => hpure _ c rfl SameLinks.rfl
    rw [bind_iff]
    apply (asks_readDeadline _ _ c).mono
    rintro (e | deadline) t hct
    · exact hdone _ _ hct
    · exact hpure _ t hct ⟨rfl, rfl, rfl, rfl, rfl, rfl⟩
  intro _
  exact ite (fun _ => hdone _ _ rfl) fun _ => hpure _ c rfl SameLinks.rfl

/-- The operation that `prepare` fills in is not settled and guards at most the one before it, and
    the next one is linked to it, to the one before it, or to none. -/
structure Prepared (c : Context) (address : Nat) (op : Op) (t : Context) : Prop where
  ops : t.ops = c.ops
  queue : t.queue = c.queue
  nextAddress : t.nextAddress = c.nextAddress
  settled : op.settled = false
  guard : ∀ g, op.guard = some g → c.linkLast = some g
  linkLast : ∀ g, t.linkLast = some g → c.linkLast = some g ∨
    (g = address ∧ op.opcode ≠ opLinkTimeout)

/-- What `prepare` leaves: a new operation whose links are to the one before it. -/
structure Fresh (c : Context) (address : Nat) (op : Op) (t : Context) : Prop where
  rest : t = { c with linkLast := t.linkLast, clock := t.clock }
  settled : op.settled = false
  after : ∀ g, op.after = some g → c.linkLast = some g
  guard : ∀ g, op.guard = some g → c.linkLast = some g
  linkLast : ∀ g, t.linkLast = some g → c.linkLast = some g ∨
    (g = address ∧ op.opcode ≠ opLinkTimeout)

/-- A new operation is prepared. -/
theorem Fresh.prepared (h : Fresh c address op t) : Prepared c address op t where
  ops := by rw [h.rest]
  queue := by rw [h.rest]
  nextAddress := by rw [h.rest]
  settled := h.settled
  guard := h.guard
  linkLast := h.linkLast

/-- A new operation names the last one that asks for a link, if there is one. -/
theorem link_links (hafter : op.after = none) (hguard : op.guard = none) (linkLast : Option Nat) :
    (∀ g, (op.link linkLast).after = some g → linkLast = some g) ∧
      (∀ g, (op.link linkLast).guard = some g → linkLast = some g) ∧
      (op.link linkLast).settled = op.settled := by
  cases linkLast with
  | none => simp [Op.link, hafter, hguard]
  | some last =>
    unfold Op.link
    split_ifs
    · simp [hafter]
    · simp [hguard]

private theorem nextLink_eq {linkLast : Option Nat} {g : Nat}
    (h : op.nextLink address linkLast = some g) :
    linkLast = some g ∨ (g = address ∧ op.opcode ≠ opLinkTimeout) := by
  unfold Op.nextLink at h
  split_ifs at h with hopcode
  · exact .inl h
  · cases h
    exact .inr ⟨rfl, hopcode⟩

private theorem prepare_fresh (c : Context) (sqe : Buffer) (address : Nat) (space : UInt64) :
    Returns (prepare world sqe address space) c fun op t => Fresh c address op t := by
  have hnew : (Op.ofSqe sqe space).after = none ∧ (Op.ofSqe sqe space).guard = none := ⟨rfl, rfl⟩
  obtain ⟨hafter, hguard, hsettled⟩ := link_links hnew.1 hnew.2 c.linkLast
  obtain ⟨op, hop⟩ : ∃ op, op = (Op.ofSqe sqe space).link c.linkLast := ⟨_, rfl⟩
  rw [← hop] at hafter hguard hsettled
  have hfresh : ∀ op' (t : Context),
      t = { c with linkLast := op.nextLink address c.linkLast, clock := t.clock } ∧
        SameLinks op op' →
        Fresh c address op' t := by
    intro op' t ⟨hct, hlinks⟩
    constructor
    · rw [hct]
    · rw [hlinks.settled, hsettled]
      rfl
    · rw [hlinks.after]
      exact hafter
    · rw [hlinks.guard]
      exact hguard
    · intro g hg
      rw [hct] at hg
      rw [hlinks.opcode]
      exact nextLink_eq hg
  unfold prepare
  rw [bind_iff, get_iff, bind_iff, modify_iff, ← hop]
  cases op.refused sqe with
  | none => exact (prepareTimeout_links _ op).mono hfresh
  | some status => exact (pure_iff _).mpr (hfresh _ _ ⟨rfl, rfl, rfl, rfl, rfl, rfl, rfl⟩)

/-- The state that `append` leaves. -/
def Context.appended (c : Context) (address : Nat) (op : Op) : Context := { c.setOp address op with
  queue := c.queue ++ [address]
  nextAddress := address + 1
  opCount := c.opCount + 1 }

private theorem append_iff {post : PUnit → Context → Prop} :
    Returns (append address op) c post ↔ post ⟨⟩ (c.appended address op) := modify_iff _

private theorem appended_new (c : Context) (address : Nat) (op : Op) :
    (c.appended address op).ops address = op := if_pos rfl

/-- A new operation leaves the others. -/
theorem appended_old {i : Nat} (h : i ≠ address) :
    (c.appended address op).ops i = c.ops i := if_neg h

section

variable (h : Prepared c c.nextAddress op t)

include h

/-- The operations that were in the list are the same: the new address is that of none of them. -/
theorem Prepared.old (hc : Linked c) {i : Nat}
    (hi : i ∈ c.queue) : (t.appended c.nextAddress op).ops i = c.ops i := by
  have hlt := hc.lt_next i hi
  rw [appended_old (by omega), h.ops]

/-- The queue with a new operation at its end. -/
theorem Prepared.mem_iff {i : Nat} :
    i ∈ (t.appended c.nextAddress op).queue ↔ i ∈ c.queue ∨ i = c.nextAddress := by
  show i ∈ t.queue ++ [c.nextAddress] ↔ _
  rw [h.queue, mem_append, mem_singleton]

/-- The pointers of a new operation are to the one that asks for the link, which is in the list. -/
theorem Prepared.pointsBack (hc : Linked c)
    (hlast : LastLinked c) (hnew : ∀ g, pointer op = some g → c.linkLast = some g)
    (hgood : PointsBack c pointer) : PointsBack (t.appended c.nextAddress op) pointer := by
  intro i hi g hg
  rw [h.mem_iff]
  obtain hmem | rfl := h.mem_iff.mp hi
  · rw [h.old hc hmem] at hg
    obtain ⟨hg', hlt, hsettled, hopcode⟩ := hgood i hmem g hg
    rw [h.old hc hg']
    exact ⟨.inl hg', hlt, hsettled, hopcode⟩
  · rw [appended_new] at hg
    obtain ⟨hg', hsettled, hopcode⟩ := hlast g (hnew g hg)
    rw [h.old hc hg']
    exact ⟨.inl hg', hc.lt_next g hg', hsettled, hopcode⟩

/-- The list after `append`: the new operation comes last. -/
theorem Prepared.linked (hc : Linked c) (hlast : LastLinked c) :
    Linked (t.appended c.nextAddress op) where
  sorted := by
    show (t.queue ++ [c.nextAddress]).Pairwise (· < ·)
    rw [h.queue, pairwise_append]
    refine ⟨hc.sorted, pairwise_singleton _ _, ?_⟩
    intro i hi j hj
    rw [mem_singleton.mp hj]
    exact hc.lt_next i hi
  lt_next i hi := by
    show i < c.nextAddress + 1
    obtain hmem | rfl := h.mem_iff.mp hi
    · have := hc.lt_next i hmem
      omega
    · omega
  guarded := h.pointsBack hc hlast h.guard hc.guarded

/-- The operation that the next one is linked to is in the list, be it the new one or one before. -/
theorem Prepared.lastLinked (hc : Linked c) (hlast : LastLinked c) :
    LastLinked (t.appended c.nextAddress op) := by
  intro g hg
  rw [h.mem_iff]
  obtain hg' | ⟨rfl, hopcode⟩ := h.linkLast g hg
  · obtain ⟨hmem, hsettled, hopcode⟩ := hlast g hg'
    rw [h.old hc hmem]
    exact ⟨.inl hmem, hsettled, hopcode⟩
  · rw [appended_new]
    exact ⟨.inr rfl, h.settled, hopcode⟩

end

/-- The list grew by at most a number of operations. -/
def Grown (c t : Context) (n : Nat) : Prop := ∃ new, t.queue = c.queue ++ new ∧ new.length ≤ n

/-- Operations that were accepted keep what their completion tells user space. -/
structure Extends (c t : Context) : Prop where
  nextAddress : c.nextAddress ≤ t.nextAddress
  userData : ∀ a, a < c.nextAddress → (t.ops a).userData = (c.ops a).userData
  sqeFlags : ∀ a, a < c.nextAddress → (t.ops a).sqeFlags = (c.ops a).sqeFlags

/-- Nothing has changed. -/
theorem Extends.rfl : Extends c c := ⟨le_refl _, fun _ _ => Eq.refl _, fun _ _ => Eq.refl _⟩

/-- One change behind another. -/
theorem Extends.trans {u : Context} (h : Extends c t) (h' : Extends t u) : Extends c u where
  nextAddress := le_trans h.nextAddress h'.nextAddress
  userData a ha := (h'.userData a (lt_of_lt_of_le ha h.nextAddress)).trans (h.userData a ha)
  sqeFlags a ha := (h'.sqeFlags a (lt_of_lt_of_le ha h.nextAddress)).trans (h.sqeFlags a ha)

/-- An access to the ring adds no operation. -/
theorem Extends.of_untouched (h : Untouched c t) : Extends c t := by
  have hsame := h.sameOps
  exact ⟨by rw [hsame.nextAddress], fun i _ => by rw [hsame.ops], fun i _ => by rw [hsame.ops]⟩

/-- Operations were added to the list and to those that were accepted. -/
structure Submits (c t : Context) (n : Nat) : Prop where
  grown : Grown c t n
  accepted : Extends c t

private theorem Submits.rfl {n : Nat} :
    Submits c c n := ⟨⟨[], (append_nil _).symm, Nat.zero_le n⟩, Extends.rfl⟩

private theorem Submits.trans {u : Context} {n m : Nat} (h : Submits c t n) (h' : Submits t u m) :
    Submits c u (n + m) := by
  obtain ⟨⟨new, hnew, hn⟩, hct⟩ := h
  obtain ⟨⟨new', hnew', hm⟩, htu⟩ := h'
  refine ⟨⟨new ++ new', ?_, ?_⟩, hct.trans htu⟩
  · rw [hnew', hnew, append_assoc]
  · rw [length_append]
    omega

private theorem Submits.mono {n m : Nat} (h : Submits c t n) (hle : n ≤ m) : Submits c t m := by
  obtain ⟨⟨new, hnew, hn⟩, hct⟩ := h
  exact ⟨⟨new, hnew, le_trans hn hle⟩, hct⟩

private theorem Submits.of_untouched (h : Untouched c t) : Submits c t 0 :=
  ⟨⟨[], by rw [h.sameOps.queue, append_nil], le_refl 0⟩, Extends.of_untouched h⟩

private theorem Submits.unlink (c : Context) : Submits c { c with linkLast := none } 0 :=
  ⟨⟨[], (append_nil _).symm, le_refl 0⟩, le_refl _, fun _ _ => Eq.refl _, fun _ _ => Eq.refl _⟩

private theorem Fresh.submits (h : Fresh c c.nextAddress op t) :
    Submits c (t.appended c.nextAddress op) 1 := by
  have hops : ∀ i, i < c.nextAddress → (t.appended c.nextAddress op).ops i = c.ops i := by
    intro i hi
    rw [appended_old (by omega), h.prepared.ops]
  refine ⟨⟨[c.nextAddress], ?_, le_refl 1⟩, Nat.le_succ _, ?_, ?_⟩
  · show t.queue ++ _ = _
    rw [h.prepared.queue]
  · exact fun i hi => by rw [hops i hi]
  · exact fun i hi => by rw [hops i hi]

/-- What holds of a ring while entries are submitted: it follows from the operations and from a
    memory that is good, and it goes on to hold with a new operation. -/
structure Submittable (shape : Shape) (good : Pages → Prop) (inv : Context → Prop) : Prop where
  linked : ∀ {c}, inv c → Linked c
  memory : ∀ {c}, inv c → good c.memory
  access : ∀ {c t}, inv c → good t.memory → Untouched c t → inv t
  append : ∀ {c t op}, inv c → LastLinked c → c.opCount < shape.opLimit →
    Fresh c c.nextAddress op t →
    inv (t.appended c.nextAddress op)
  unlink : ∀ {c}, inv c → inv { c with linkLast := none }

private theorem submittable_linked : Submittable shape (fun _ => True) Linked where
  linked h := h
  memory _ := trivial
  access h _ hct := h.of_frame hct.frame
  append h hlast _ hfresh := hfresh.prepared.linked h hlast
  unlink h := ⟨h.sorted, h.lt_next, h.guarded⟩

section

variable {good : Pages → Prop} {inv : Context → Prop} (hinv : Submittable shape good inv)
  (ht : Tolerates shape world good) (hs : shape.Sized)

include hinv ht hs

/-- Every submission keeps the invariant, whatever the ring holds. -/
private theorem submitLoop_spec (space : UInt64) (steps : Nat) :
    ∀ (c : Context) (head : UInt32) (submitted : Int64), inv c → LastLinked c →
      Returns (submitLoop shape world space steps head submitted) c fun _ t => inv t ∧
        Submits c t steps := by
  induction steps with
  | zero => exact fun c _ _ hc _ => (pure_iff _).mpr ⟨hc, Submits.rfl⟩
  | succ steps ih =>
    intro c head submitted hc hlast
    unfold submitLoop
    rw [bind_iff, get_iff]
    split
    · exact (pure_iff _).mpr ⟨hc, Submits.rfl⟩
    next hlimit =>
    apply (ht.submissionIndex hs head).then_of (hinv.memory hc)
    intro index t ht' hct
    split
    · apply (ht.loadField hs (by decide) (by decide)).then_of ht'
      intro dropped u hu htu
      apply (ht.storeField hs (by decide) (by decide) _).then_of hu
      intro _ v hv huv
      have hcv := (hct.trans htu).trans huv
      apply (ih v _ submitted (hinv.access hc hv hcv) (hlast.of_untouched hcv)).mono
      intro _ w ⟨hw, hvw⟩
      exact ⟨hw, ((Submits.of_untouched hcv).trans hvw).mono (by omega)⟩
    next hindex =>
    -- The entry is copied once and the index it was read from is not read again.
    have hlt : index < shape.sqEntries := UInt32.not_le.mp hindex
    apply (ht.stable.copyBytes (hs.holds_sqe hlt) 64 (le_refl _)).then_of ht'
    intro sqe u hu htu
    apply keeps_tick.then_of hu
    intro time v hv huv
    have hcv := (hct.trans htu).trans huv
    have hinv' := hinv.access hc hv hcv
    have hlast' := hlast.of_untouched hcv
    split_ifs
    · rw [bind_iff, get_iff, bind_iff]
      apply (prepare_fresh v sqe v.nextAddress space).mono
      intro op w hw
      rw [bind_iff, append_iff]
      -- The check of the loop was before user space was let in, which has no part in the count.
      have hcount : v.opCount < shape.opLimit := by
        rw [hcv.opCount]
        exact UInt32.not_le.mp hlimit
      apply (ih _ (head + 1) (submitted + 1) (hinv.append hinv' hlast' hcount hw)
        (hw.prepared.lastLinked (hinv.linked hinv') hlast')).mono
      intro _ x ⟨hx, hwx⟩
      exact ⟨hx, (((Submits.of_untouched hcv).trans hw.submits).trans hwx).mono (by omega)⟩
    · exact (pure_iff _).mpr ⟨hinv', (Submits.of_untouched hcv).mono (by omega)⟩

/-- `io_uring_submit` stays in the ring and makes no more operations than the ring has entries. -/
theorem submit_spec (hc : inv c) (toSubmit : UInt32) (space : UInt64) :
    Returns (ioUringSubmit shape world toSubmit space) c fun _ t => inv t ∧
      Submits c t shape.sqEntries.toNat := by
  unfold ioUringSubmit
  apply (ht.loadField hs (by decide) (by decide)).then_of (hinv.memory hc)
  intro head t ht' hct
  apply (ht.loadField hs (by decide) (by decide)).then_of ht'
  intro tail u hu htu
  have hcu := hct.trans htu
  dsimp only
  -- The tail is user space's, but the difference is cut to the number of entries.
  generalize hwanted :
    (if toSubmit < (if shape.sqEntries < tail - head then shape.sqEntries else tail - head) then
    toSubmit else if shape.sqEntries < tail - head then shape.sqEntries else tail - head) = wanted
  have hle : wanted.toNat ≤ shape.sqEntries.toNat := by
    rw [← hwanted]
    simp only [UInt32.lt_iff_toNat_lt]
    split_ifs <;> omega
  rw [bind_iff, clearLink, modify_iff, bind_iff]
  apply (submitLoop_spec hinv ht hs space wanted.toNat { u with linkLast := none } head 0
    (hinv.unlink (hinv.access hc hu hcu)) nofun).mono
  intro result w ⟨hw, huw⟩
  rw [bind_iff, modify_iff]
  have hx := hinv.unlink hw
  apply (ht.storeField hs (by decide) (by decide) _).then_of (hinv.memory hx)
  intro _ y hy hxy
  have hcw := ((Submits.of_untouched hcu).trans (Submits.unlink u)).trans huw
  have hwy := (Submits.unlink w).trans (Submits.of_untouched hxy)
  exact (pure_iff _).mpr ⟨hinv.access hx hy hxy, (hcw.trans hwy).mono (by omega)⟩

end

/-! ## Calls -/

/-- The call returns, and if it is a submission it made at most as many operations as the ring has
    entries. -/
def Contained (shape : Shape) (world : World) (c : Context) (call : Call) : Prop :=
  ∃ t, perform shape world c call = some t ∧
    ∀ toSubmit space, call = .submit toSubmit space → Grown c t shape.sqEntries.toNat

private theorem Shape.Sized.perform_linked (hs : shape.Sized) (hc : Linked c) (call : Call) :
    ∃ t, perform shape world c call = some t ∧ Linked t ∧
      ∀ toSubmit space, call = .submit toSubmit space → Grown c t shape.sqEntries.toNat := by
  suffices h : Returns (call.body shape world) c fun _ t => Linked t ∧
      ∀ toSubmit space, call = .submit toSubmit space → Grown c t shape.sqEntries.toNat by
    obtain ⟨_, t, ht, hpost⟩ := h
    exact ⟨t, by rw [perform, ht]; rfl, hpost⟩
  cases call with
  | submit toSubmit space =>
    simp only [Call.body, bind_iff, pure_iff]
    apply (submit_spec submittable_linked tolerates_true hs hc toSubmit space).mono
    intro _ t h
    exact ⟨h.1, fun _ _ _ => h.2.grown⟩
  | run space =>
    apply (runRounds_keeps (fun h => h) (fun h hct => h.of_frame hct.frame)
      (fun h _ hct => hct.linked h)
      hs.post_linked space 8 c hc).mono
    exact fun _ t ht => ⟨ht, fun _ _ hcall => by cases hcall⟩
  | post => exact (hs.post_linked hc).mono fun _ t ht => ⟨ht, fun _ _ hcall => by cases hcall⟩
  | completionsReady =>
    simp only [Call.body, bind_iff, pure_iff]
    exact (tolerates_true.completionsReady hs c trivial).mono fun _ t ht =>
      ⟨hc.of_frame ht.2.frame, fun _ _ hcall => by cases hcall⟩
  | poll requested =>
    simp only [Call.body, bind_iff, pure_iff]
    exact (tolerates_true.poll hs requested c trivial).mono fun _ t ht =>
      ⟨hc.of_frame ht.2.frame, fun _ _ hcall => by cases hcall⟩

/-- Every call on a ring that is laid out well is contained in it. -/
theorem Shape.Sized.contained_of_linked (hs : shape.Sized) (hc : Linked c)
    (calls : List Call) : Steps.Always (perform shape world) (Contained shape world) c calls := by
  have hstep : ∀ s call t, Linked s → True → perform shape world s call = some t → Linked t := by
    intro s call t hlinked _ ht
    obtain ⟨u, hu, hu', _⟩ := hs.perform_linked hlinked call
    rw [ht] at hu
    cases hu
    exact hu'
  have hcontained : ∀ s call, Linked s → True → Contained shape world s call := by
    intro s call hlinked _
    obtain ⟨u, hu, _, hgrown⟩ := hs.perform_linked hlinked call
    exact ⟨u, hu, hgrown⟩
  exact Steps.Always.mono hstep hcontained hc (Steps.Always.of_forall (fun _ _ _ => trivial) c)

/-- What `io_uring_create` returns: a ring that is laid out well, the number of completion entries
    being a power of two, with its fields filled in. -/
theorem ioUringCreate_spec (world : World) (entries : UInt32) (params : Params)
    (memory : Allocation) :
    ∃ created, ioUringCreate world entries params memory = some created ∧
      ∀ shape out ring, created = .ok (shape, out, ring) → shape.Sized ∧
        (∃ j, j ≤ 16 ∧ shape.cqEntries.toNat = 2 ^ j) ∧
        ∃ a, fillFields shape world (newContext memory.page) = some (a, ring) := by
  obtain ⟨sizes, hsizes, hbounds⟩ := ringEntries_spec entries params
  unfold ioUringCreate
  rw [hsizes, Option.bind_some]
  cases sizes with
  | error e => exact ⟨_, rfl, nofun⟩
  | ok sizes =>
    obtain ⟨sq, cq⟩ := sizes
    obtain ⟨⟨i, hi, hsq⟩, j, hj, hcq⟩ := hbounds sq cq rfl
    have hle := (bounds_of_pow hj hcq).2
    -- The sizes are powers of two in bounds, so the layout has room for them.
    have hs := sized_layout params.flags (bounds_of_pow hi hsq) (bounds_of_pow hj hcq)
    dsimp only
    split_ifs
    · exact ⟨_, rfl, nofun⟩
    have hfill := (@tolerates_true _ world).fillFields hs (newContext memory.page) trivial
    obtain ⟨_, filled, hfilled, -⟩ := hfill
    rw [hfilled]
    refine ⟨_, rfl, fun shape out ring h => ?_⟩
    cases h
    refine ⟨hs, ⟨j, hj, ?_⟩, _, hfilled⟩
    show cq.toUInt32.toNat = 2 ^ j
    rw [UInt64.toNat_toUInt32]
    omega

/-- A new context has no operation. -/
theorem linked_newContext (pages : Nat → Option Buffer) : Linked (newContext pages) where
  sorted := Pairwise.nil
  lt_next := nofun
  guarded := nofun

/-- A ring is created without an access outside its memory, and whatever user space then stores in
    the ring at any moment, no call of the kernel makes one: `io_uring_submit`, `io_uring_run`,
    posting and polling all return, and each submission makes at most as many operations as the ring
    has entries. -/
theorem ring_contained (world : World) (entries : UInt32) (params : Params) (memory : Allocation)
    (calls : List Call) :
    ∃ created, ioUringCreate world entries params memory = some created ∧
      ∀ shape out ring, created = .ok (shape, out, ring) →
        Steps.Always (perform shape world) (Contained shape world) ring calls := by
  obtain ⟨created, hcreated, hspec⟩ := ioUringCreate_spec world entries params memory
  refine ⟨created, hcreated, fun shape out ring h => ?_⟩
  obtain ⟨hs, -, _, hfilled⟩ := hspec shape out ring h
  obtain ⟨-, huntouched⟩ := (tolerates_true.fillFields hs _ trivial).of_eq hfilled
  exact hs.contained_of_linked ((linked_newContext memory.page).of_frame huntouched.frame) calls

/-- User space that sets every byte of the ring before each access. -/
def hostileWorld : World where
  user _ _ := fun _ _ => 0xFF
  kmalloc _ := true
  timespec _ _ := none
  timeUptimeNs _ := 0
  timeRealtimeNs _ := 0
  execute _ _ := ⟨0, 0, 0⟩

/-- The parameters of a ring without flags. -/
def plainParams : Params where
  sqEntries := 0
  cqEntries := 0
  flags := 0
  features := 0
  resv := (0, 0, 0)
  sqOff := ⟨0, 0, 0, 0, 0, 0, 0⟩
  cqOff := ⟨0, 0, 0, 0, 0, 0, 0⟩

def allMemory : Allocation where
  context := true
  object := true
  pages := true
  truncate := true
  page _ := some zeros

/-- A user who keeps storing into the ring. -/
theorem hostileRing_contained :
    ∃ shape out ring,
      ioUringCreate hostileWorld 3 plainParams allMemory = some (.ok (shape, out, ring)) ∧
      shape.sqEntries = 4 ∧
        Steps.Always (perform shape hostileWorld) (Contained shape hostileWorld) ring
        [.submit 0xFFFFFFFF 1, .run 1, .poll 5, .submit 2 1, .run 1] := by
  obtain ⟨created, hcreated, hcontained⟩ := ring_contained hostileWorld 3 plainParams allMemory
    [.submit 0xFFFFFFFF 1, .run 1, .poll 5, .submit 2 1, .run 1]
  have hentries : (ioUringCreate hostileWorld 3 plainParams allMemory).map (fun result =>
      result.toOption.map fun r => r.1.sqEntries) = some (some 4) := by decide +kernel
  cases created with
  | error e => simp [hcreated, Except.toOption] at hentries
  | ok result =>
    obtain ⟨shape, out, ring⟩ := result
    refine ⟨shape, out, ring, hcreated, ?_, hcontained shape out ring rfl⟩
    simpa [hcreated, Except.toOption] using hentries

end Tunix.IoUring
