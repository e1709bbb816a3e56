import Mathlib.Data.List.Perm.Subperm
import Tunix.ForStd.Run
import Tunix.Kernel.Orphan

/-!
# The record of the orphans

The record should have each inode that was added and not yet removed once, and the next mount should
come to all of them. It does as long as no inode is removed from the list that has more than 4096
others before it: the walk of `orphan_remove` gives up there, and the list is cut behind the inode
that stays in it.
-/

namespace Tunix.Orphan

open Steps Function List

variable {next : Nat → Nat} {first ino : Nat} {list : List Nat} {v : Volume}

/-! ## The list -/

/-- The list that starts with an inode and goes on as each one says; 0 is its end. -/
def Chain (next : Nat → Nat) : Nat → List Nat → Prop
  | first, [] => first = 0
  | first, x :: rest => first = x ∧ x ≠ 0 ∧ Chain next (next x) rest

private theorem Chain.congr {next' : Nat → Nat} (h : Chain next first list)
    (hsame : ∀ x ∈ list, next' x = next x) :
    Chain next' first list := by
  induction list generalizing first with
  | nil => exact h
  | cons x rest ih =>
    obtain ⟨hfirst, hx, hrest⟩ := h
    rw [forall_mem_cons] at hsame
    refine ⟨hfirst, hx, ?_⟩
    rw [hsame.1]
    exact ih hrest hsame.2

private theorem Chain.ne_zero (h : Chain next first list) : ∀ x ∈ list, x ≠ 0 := by
  induction list generalizing first with
  | nil => exact nofun
  | cons x rest ih => exact forall_mem_cons.mpr ⟨h.2.1, ih h.2.2⟩

/-- An inode outside the list may get any time. -/
theorem Chain.update (h : Chain next first list) (hino : ino ∉ list) (time : Nat) :
    Chain (update next ino time) first list :=
  h.congr fun _ hx => update_of_ne (ne_of_mem_of_not_mem hx hino) ..

/-- An inode leaves the list if the one before it gets its time. -/
theorem Chain.unlink {pre post : List Nat} {p : Nat}
    (h : Chain next first (pre ++ p :: ino :: post))
    (hnodup : (pre ++ p :: ino :: post).Nodup) :
    Chain (Function.update (Function.update next p (next ino)) ino 0) first (pre ++ p :: post) := by
  induction pre generalizing first with
  | nil =>
    obtain ⟨rfl, hp, -, -, hpost⟩ := h
    simp only [nil_append, nodup_cons, mem_cons, not_or] at hnodup
    refine ⟨rfl, hp, ?_⟩
    rw [update_of_ne hnodup.1.1, update_self]
    exact (hpost.update hnodup.1.2 _).update hnodup.2.1 _
  | cons x pre ih =>
    obtain ⟨hfirst, hx, hrest⟩ := h
    simp only [cons_append, nodup_cons, mem_append, mem_cons, not_or] at hnodup
    refine ⟨hfirst, hx, ?_⟩
    rw [update_of_ne hnodup.1.2.2.1, update_of_ne hnodup.1.2.1]
    exact ih hrest hnodup.2

/-- An inode of the list stays there if only its own time changes. -/
theorem Chain.mem_update {list' : List Nat} {time : Nat} (h : Chain next first list)
    (h' : Chain (Function.update next ino time) first list') (hino : ino ∈ list) : ino ∈ list' := by
  induction list generalizing first list' with
  | nil => cases hino
  | cons x rest ih =>
    obtain ⟨rfl, hx, hrest⟩ := h
    cases list' with
    | nil => exact absurd h' hx
    | cons y rest' =>
      obtain ⟨rfl, -, hrest'⟩ := h'
      by_cases heq : ino = first
      · exact heq ▸ mem_cons_self
      · rw [update_of_ne (Ne.symm heq)] at hrest'
        exact mem_cons_of_mem _ (ih hrest hrest' ((mem_cons.mp hino).resolve_left heq))

/-! ## The walk -/

/-- The walk finds the inode before `ino` among the first ones, or it changes nothing; it fails only
    if `ino` is not in the list. -/
theorem unlinkWalk_spec {walk : Nat} (guard following : Nat) (h : Chain v.dtime walk list)
    (hsmall : ∀ x ∈ list, x ≤ v.inodesCount) (hino : ino ≠ 0) (hwalk : walk ≠ ino) :
    (ino ∈ list.take (guard + 1) ∧ ∃ pre p post, list = pre ++ p :: ino :: post ∧
      unlinkWalk v ino following guard walk = some (v.setDtime p following)) ∨
    (ino ∉ list.take (guard + 1) ∧ (unlinkWalk v ino following guard walk = some v ∨
      unlinkWalk v ino following guard walk = none ∧ ino ∉ list)) := by
  -- The guard counts the turns; behind it the list is not looked at.
  induction guard generalizing walk list with
  | zero =>
    cases list with
    | nil => exact .inr ⟨not_mem_nil, .inr ⟨if_pos h, not_mem_nil⟩⟩
    | cons x rest => exact .inr ⟨by simpa [← h.1] using hwalk.symm, .inl (if_neg (h.1 ▸ h.2.1))⟩
  | succ guard ih =>
    cases list with
    | nil => exact .inr ⟨not_mem_nil, .inr ⟨if_pos h, not_mem_nil⟩⟩
    | cons x rest =>
      obtain ⟨rfl, hx, hrest⟩ := h
      rw [forall_mem_cons] at hsmall
      rw [unlinkWalk, if_neg hx, if_neg (Nat.not_lt.mpr hsmall.1)]
      by_cases hfound : v.dtime walk = ino
      · -- the next one is the one to remove
        rw [if_pos hfound]
        cases rest with
        | nil => exact absurd (hfound.symm.trans hrest) hino
        | cons y post =>
          obtain rfl : ino = y := hfound.symm.trans hrest.1
          exact .inl ⟨by simp, [], walk, post, rfl, rfl⟩
      · rw [if_neg hfound, take_succ_cons, mem_cons, mem_cons, or_iff_right hwalk.symm,
          or_iff_right hwalk.symm]
        obtain ⟨hmem, pre, p, post, rfl, heq⟩ | hother := ih hrest hsmall.2 hfound
        · exact .inl ⟨hmem, walk :: pre, p, post, rfl, heq⟩
        · exact .inr hother

/-! ## The slots -/

private theorem replaceSlot_perm {old new : Nat} {slots slots' : List Nat}
    (h : replaceSlot old new slots = some slots') :
    (new :: slots).Perm (old :: slots') := by
  induction slots generalizing slots' with
  | nil => cases h
  | cons slot rest ih =>
    rw [replaceSlot] at h
    split_ifs at h with hslot
    · obtain ⟨rest', hrest, rfl⟩ := Option.map_eq_some_iff.mp h
      exact (Perm.swap ..).trans (((ih hrest).cons slot).trans (Perm.swap ..))
    · obtain rfl := Option.some.inj h
      rw [not_not.mp hslot]
      exact Perm.swap ..

private theorem replaceSlot_none {old new : Nat} {slots : List Nat}
    (h : replaceSlot old new slots = none) :
    old ∉ slots := by
  induction slots with
  | nil => exact not_mem_nil
  | cons slot rest ih =>
    rw [replaceSlot] at h
    split_ifs at h with hslot
    exact not_mem_cons_of_ne_of_not_mem (Ne.symm hslot) (ih (Option.map_eq_none_iff.mp h))

/-! ## The mount -/

private theorem replayList_eq (settled : Nat → Nat) {guard : Nat} (h : Chain v.dtime first list)
    (hnodup : list.Nodup)
    (hsmall : ∀ x ∈ list, x ≤ v.inodesCount) (hguard : list.length ≤ guard) :
    replayList settled v guard first = list := by
  induction list generalizing v first guard with
  | nil => cases guard <;> simp [replayList, show first = 0 from h]
  | cons x rest ih =>
    obtain ⟨rfl, hx, hrest⟩ := h
    rw [nodup_cons] at hnodup
    rw [forall_mem_cons] at hsmall
    obtain ⟨guard, rfl⟩ :=
      Nat.exists_eq_add_of_le' (Nat.le_trans (Nat.succ_le_succ (Nat.zero_le _)) hguard)
    rw [replayList, if_neg (by omega)]
    exact congrArg _
      (ih (hrest.update hnodup.1 _) hnodup.2 hsmall.2 (Nat.le_of_succ_le_succ hguard))

/-! ## Additions and removals -/

/-- What the calls keep: the record has the orphans, which are inodes of the volume. -/
structure Recorded (v : Volume) (orphans list : List Nat) : Prop where
  linked : Chain v.dtime v.lastOrphan list
  perm : (list ++ v.slots.filter (· ≠ 0)).Perm orphans
  nodup : orphans.Nodup
  small : ∀ x ∈ orphans, x ≤ v.inodesCount

/-- The record has the orphans, each once, and the mount comes to all of them. -/
def Exact (v : Volume) (orphans : List Nat) : Prop :=
  ∃ list, Chain v.dtime v.lastOrphan list ∧ (list ++ v.slots.filter (· ≠ 0)).Perm orphans ∧
    orphans.Nodup ∧ ∀ settled, orphans ⊆ orphansReplay settled v

namespace Recorded

variable {orphans : List Nat}

section

variable (h : Recorded v orphans list)

include h

private theorem list_nodup : list.Nodup := (nodup_append.mp (h.perm.nodup_iff.mpr h.nodup)).1

private theorem subset : list ⊆ orphans := fun _ hx => h.perm.subset (mem_append_left _ hx)

private theorem list_small : ∀ x ∈ list, x ≤ v.inodesCount := fun x hx => h.small x (h.subset hx)

private theorem exact : Exact v orphans := by
  refine ⟨list, h.linked, h.perm, h.nodup, fun settled x hx => ?_⟩
  -- there are no more than the inodes of the volume, and so enough turns
  have hlength : list.length ≤ v.inodesCount := by
    have hrange : list ⊆ range' 1 v.inodesCount := fun x hx => mem_range'_1.mpr
      ⟨Nat.pos_of_ne_zero (h.linked.ne_zero x hx), Nat.lt_one_add_iff.mpr (h.list_small x hx)⟩
    simpa using (h.list_nodup.subperm hrange).length_le
  rw [orphansReplay, replayList_eq settled h.linked h.list_nodup h.list_small hlength]
  obtain hx' | hx' := mem_append.mp (h.perm.symm.subset hx)
  · exact mem_append_left _ hx'
  · obtain ⟨hslot, hne⟩ := mem_filter.mp hx'
    exact mem_append_right _ (mem_filter.mpr ⟨hslot, by simpa [h.small x hx] using hne⟩)

private theorem add (hne : ino ≠ 0) (hle : ino ≤ v.inodesCount) (hnew : ino ∉ orphans) :
    ∃ list, Recorded (orphanAdd v ino) (ino :: orphans) list := by
  have hnodup : (ino :: orphans).Nodup := nodup_cons.mpr ⟨hnew, h.nodup⟩
  have hsmall : ∀ x ∈ ino :: orphans, x ≤ v.inodesCount := forall_mem_cons.mpr ⟨hle, h.small⟩
  unfold orphanAdd
  split
  · next slots hslot =>
    have hslots : (slots.filter (· ≠ 0)).Perm (ino :: v.slots.filter (· ≠ 0)) := by
      simpa [hne] using ((replaceSlot_perm hslot).filter (· ≠ 0)).symm
    exact ⟨list, h.linked,
      (hslots.append_left list).trans (perm_middle.trans (h.perm.cons ino)), hnodup, hsmall⟩
  · refine ⟨ino :: list, ⟨rfl, hne, ?_⟩, h.perm.cons ino, hnodup, hsmall⟩
    show Chain (update v.dtime ino v.lastOrphan) (update v.dtime ino v.lastOrphan ino) list
    rw [update_self]
    exact h.linked.update (fun hmem => hnew (h.subset hmem)) _

/-- A volume whose record has lost the inode. -/
theorem erase {w : Volume} {list' : List Nat}
    (hlinked : Chain w.dtime w.lastOrphan list') (hcount : w.inodesCount = v.inodesCount)
    (hperm : (list ++ v.slots.filter (· ≠ 0)).Perm (ino :: (list' ++ w.slots.filter (· ≠ 0)))) :
    Recorded w (orphans.erase ino) list' := by
  refine ⟨hlinked, ?_, h.nodup.erase ino, fun x hx => ?_⟩
  · simpa using (hperm.symm.trans h.perm).erase ino
  · rw [hcount]
    exact h.small x (mem_of_mem_erase hx)

/-- A removal from the list keeps the record if the walk comes to the inode, and only then. -/
theorem remove (hne : ino ≠ 0) : (ino ∈ list → ino ∈ list.take 4097) ∧
      (∃ list, Recorded ((orphanRemove v ino).getD v) (orphans.erase ino) list) ∨
    ¬(ino ∈ list → ino ∈ list.take 4097) ∧
      ¬Exact ((orphanRemove v ino).getD v) (orphans.erase ino) := by
  have hnodup := h.list_nodup
  -- A slot, the head of the list, or a place further down.
  unfold orphanRemove
  split
  · -- the inode has a slot, and is then not in the list
    next slots hslot =>
    have hslots : (v.slots.filter (· ≠ 0)).Perm (ino :: slots.filter (· ≠ 0)) := by
      simpa [hne] using (replaceSlot_perm hslot).filter (· ≠ 0)
    have hperm := (hslots.append_left list).trans perm_middle
    have hnot := (nodup_cons.mp (hperm.nodup_iff.mp (h.perm.nodup_iff.mpr h.nodup))).1
    exact .inl ⟨fun hmem => absurd (mem_append_left _ hmem) hnot, list, h.erase h.linked rfl hperm⟩
  · next hslot =>
    dsimp only
    split_ifs with hlast
    · cases list with
      | nil => exact absurd (hlast.symm.trans h.linked) hne
      | cons x rest =>
        obtain ⟨hx, -, hrest⟩ := h.linked
        obtain rfl : ino = x := hlast.symm.trans hx
        refine .inl ⟨fun _ => by simp, rest, h.erase ?_ rfl (Perm.refl _)⟩
        exact hrest.update (nodup_cons.mp hnodup).1 0
    · -- an inode that is in neither leaves the record as it is
      have hother : ino ∉ list → orphans.erase ino = orphans :=
        fun hino => erase_of_not_mem fun hmem =>
        (mem_append.mp (h.perm.symm.subset hmem)).elim hino fun hmem =>
          replaceSlot_none hslot (mem_filter.mp hmem).1
      obtain ⟨hmem, pre, p, post, rfl, hwalk⟩ | ⟨hmem, hwalk | ⟨hwalk, hino⟩⟩ :=
        unlinkWalk_spec 4096 (v.dtime ino) h.linked h.list_small hne hlast <;> rw [hwalk]
      · refine .inl ⟨fun _ => hmem, pre ++ p :: post, h.erase (h.linked.unlink hnodup) rfl ?_⟩
        show (_ ++ v.slots.filter _).Perm (ino :: (_ ++ v.slots.filter _))
        simpa using @List.perm_middle _ ino (pre ++ [p]) (post ++ v.slots.filter (· ≠ 0))
      · by_cases hino : ino ∈ list
        · -- the walk has given up, and the inode is still there
          refine .inr ⟨fun hnear => hmem (hnear hino), ?_⟩
          rintro ⟨list', hlinked, hperm, -⟩
          have hmem' := hperm.subset (mem_append_left _ (h.linked.mem_update hlinked hino))
          exact h.nodup.not_mem_erase hmem'
        · rw [hother hino]
          exact .inl ⟨fun hmem => absurd hmem hino, list, h.linked.update hino 0, h.perm,
            h.nodup, h.small⟩
      · rw [hother hino]
        exact .inl ⟨fun hmem => absurd hmem hino, list, h⟩

end

end Recorded

/-! ## Runs -/

inductive Event
  | add (ino : Nat)
  | remove (ino : Nat)

structure State where
  volume : Volume
  /-- The inodes that were added and not yet removed; not on the disk. -/
  orphans : List Nat

def State.after (s : State) : Event → State
  | .add ino => ⟨orphanAdd s.volume ino, ino :: s.orphans⟩
  | .remove ino => ⟨(orphanRemove s.volume ino).getD s.volume, s.orphans.erase ino⟩

def step (s : State) (event : Event) : Option State := some (s.after event)

/-- Only an inode of the volume is added, and only if it is not an orphan. -/
def Proper (s : State) : Event → Prop
  | .add ino => ino ≠ 0 ∧ ino ≤ s.volume.inodesCount ∧ ino ∉ s.orphans
  | .remove ino => ino ≠ 0

/-- What is removed from the list has at most 4096 inodes before it. -/
def Near (s : State) : Event → Prop
  | .add _ => True
  | .remove ino =>
    ∀ list, Chain s.volume.dtime s.volume.lastOrphan list → ino ∈ list → ino ∈ list.take 4097

/-- A call leaves a record that has the orphans. -/
def LeavesExact (s : State) (event : Event) : Prop :=
  Exact (s.after event).volume (s.after event).orphans

private theorem Chain.unique {list' : List Nat} (h : Chain next first list)
    (h' : Chain next first list') :
    list = list' := by
  induction list generalizing first list' with
  | nil =>
    cases list' with
    | nil => rfl
    | cons y rest' => exact absurd (h'.1.symm.trans h) h'.2.1
  | cons x rest ih =>
    cases list' with
    | nil => exact absurd (h.1.symm.trans h') h.2.1
    | cons y rest' =>
      obtain rfl : x = y := h.1.symm.trans h'.1
      exact congrArg _ (ih h.2.2 h'.2.2)

private theorem Recorded.after {s : State} {event : Event} (h : Recorded s.volume s.orphans list)
    (hproper : Proper s event) :
    (Near s event ∧ ∃ list, Recorded (s.after event).volume (s.after event).orphans list) ∨
      (¬Near s event ∧ ¬LeavesExact s event) := by
  cases event with
  | add ino => exact .inl ⟨trivial, h.add hproper.1 hproper.2.1 hproper.2.2⟩
  | remove ino =>
    have hnear : Near s (.remove ino) ↔ (ino ∈ list → ino ∈ list.take 4097) :=
      ⟨fun hnear => hnear list h.linked, fun hnear list' hlinked => h.linked.unique hlinked ▸ hnear⟩
    rw [hnear]
    exact h.remove hproper

/-- In every sequence of additions and removals each call leaves the record exact if and only if no
    inode is removed from the list that has more than 4096 others before it. -/
theorem leavesExact_iff_near {s : State} {events : List Event}
    (h : Recorded s.volume s.orphans list)
    (hproper : Always step Proper s events) :
    Always step LeavesExact s events ↔ Always step Near s events := by
  have hiff : ∀ s event, (∃ list, Recorded s.volume s.orphans list) → Proper s event →
      (LeavesExact s event ↔ Near s event) := by
    rintro s event ⟨list, h⟩ hproper
    obtain ⟨hnear, _, hafter⟩ | ⟨hnear, hafter⟩ := h.after hproper
    · exact iff_of_true hafter.exact hnear
    · exact iff_of_false hafter hnear
  refine Always.iff hiff ?_ ⟨list, h⟩ hproper
  rintro s event t ⟨list, h⟩ hproper hnear hstep
  obtain rfl := Option.some.inj hstep
  exact ((h.after hproper).resolve_right fun hnot => hnot.1 hnear).2

/-- An empty record, with one slot. -/
def oneSlot : State := ⟨⟨16, [0], 0, fun _ => 0⟩, []⟩

/-- One inode gets the slot, and another one comes to the list and goes. -/
theorem oneSlot_leavesExact : Always step LeavesExact oneSlot [.add 12, .add 13, .remove 13] := by
  have hempty : Recorded oneSlot.volume oneSlot.orphans [] :=
    ⟨rfl, List.Perm.nil, List.nodup_nil, nofun⟩
  refine (leavesExact_iff_near hempty ?_).mpr ?_
  · refine ⟨⟨by decide, by decide, by decide⟩, ?_⟩
    rintro _ ⟨⟩
    refine ⟨⟨by decide, by decide, by decide⟩, ?_⟩
    rintro _ ⟨⟩
    exact ⟨Nat.succ_ne_zero 12, fun _ _ => trivial⟩
  · refine ⟨trivial, ?_⟩
    rintro _ ⟨⟩
    refine ⟨trivial, ?_⟩
    rintro _ ⟨⟩
    refine ⟨fun list hlist hmem => ?_, fun _ _ => trivial⟩
    obtain rfl : list = [13] := hlist.unique ⟨rfl, by decide, rfl⟩
    exact hmem

/-- The volume whose list has the inodes up to the last one. -/
def longList (last : Nat) : State :=
  ⟨⟨4098, [], last, fun x => if x ≤ last then x - 1 else 0⟩, (range' 1 last).reverse⟩

private theorem longList_after (last : Nat) :
    (longList last).after (.add (last + 1)) = longList (last + 1) := by
  have hdtime : update (fun x => if x ≤ last then x - 1 else 0) (last + 1) last =
      fun x => if x ≤ last + 1 then x - 1 else 0 := by
    funext x
    rw [update_apply]
    split_ifs <;> omega
  simp [longList, State.after, orphanAdd, replaceSlot, Volume.setDtime, hdtime,
    range'_concat, Nat.add_comm]

private theorem longList_linked (last : Nat) :
    Chain (longList last).volume.dtime last (longList last).orphans := by
  induction last with
  | zero => rfl
  | succ last ih =>
    rw [← longList_after]
    refine ⟨rfl, Nat.succ_ne_zero last, ?_⟩
    show Chain (update (longList last).volume.dtime (last + 1) last)
      (update (longList last).volume.dtime (last + 1) last (last + 1)) _
    rw [update_self]
    exact ih.update (by simp [longList]; omega) _

private theorem longList_recorded {last : Nat} (hlast : last ≤ 4098) :
    Recorded (longList last).volume (longList last).orphans (longList last).orphans := by
  refine ⟨longList_linked last, by simp [longList], ?_, fun x hx => ?_⟩
  · exact (reverse_perm _).nodup_iff.mpr nodup_range'
  have hmem := mem_range'_1.mp (mem_reverse.mp hx)
  show x ≤ 4098
  omega

/-- Only the last inode of the list has all the others before it. -/
theorem longList_far {n last : Nat} (hlast : last = n + 1) :
    1 ∈ (longList last).orphans ∧ 1 ∉ (longList last).orphans.take n := by
  have horphans : (longList last).orphans = (range' 2 n).reverse ++ [1] := by
    simp [hlast, longList, range'_succ]
  rw [horphans]
  simp [mem_range'_1]

/-- The first of 4098 inodes cannot be removed. -/
theorem longList_not_leavesExact :
    Always step Proper (longList 0) ((List.range' 1 4098).map .add ++ [.remove 1]) ∧
      ¬Always step LeavesExact (longList 0) ((List.range' 1 4098).map .add ++ [.remove 1]) := by
  have hrun : ∀ n last, last + n = 4098 →
      Always step Proper (longList last) ((List.range' (last + 1) n).map .add ++ [.remove 1]) ∧
        ¬Always step LeavesExact (longList last)
          ((List.range' (last + 1) n).map .add ++ [.remove 1]) := by
    intro n
    induction n with
    | zero =>
      intro last hlast
      refine ⟨⟨Nat.one_ne_zero, fun _ _ => trivial⟩, fun hexact => ?_⟩
      obtain ⟨hmem, hfar⟩ := longList_far (show last = 4097 + 1 from hlast)
      obtain ⟨hnear, -⟩ | ⟨-, hnot⟩ :=
        (longList_recorded (Nat.le_of_eq hlast)).remove Nat.one_ne_zero
      · exact hfar (hnear hmem)
      · exact hnot hexact.1
    | succ n ih =>
      intro last hlast
      obtain ⟨hproper, hexact⟩ := ih (last + 1) (by omega)
      rw [List.range'_succ]
      refine ⟨⟨⟨Nat.succ_ne_zero last, ?_, by simp [longList]; omega⟩, ?_⟩, fun hall => hexact ?_⟩
      · show last + 1 ≤ 4098
        omega
      · rintro _ ⟨⟩
        rw [longList_after]
        exact hproper
      · exact longList_after last ▸ hall.2 _ rfl
  exact hrun 4098 0 rfl

end Tunix.Orphan
