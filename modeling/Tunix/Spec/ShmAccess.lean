import Tunix.ForStd.Run
import Tunix.Kernel.SysvShm

/-!
# Who may use a shared memory segment

`sysvshm_get` keeps the mode and the owner of a segment, and no call looks at them again.
`Permitted` is what they should mean for a call by a process that is not root. It holds in runs in
which one user makes, changes and removes the segments and every mode that is given lets those who
attach do so (`permitted_of_run`), and otherwise it need not: `secret_attached` is a private segment
that another user maps for writing.
-/

namespace Tunix.SysvShm

open Tunix.Core List

def readBit : UInt32 := 4
def writeBit : UInt32 := 2

/-- The segment that an id stands for. -/
def Shm.segment? (s : Shm) (id : Int32) : Option Segment :=
  (s.findById id).bind fun i => s.segments[i]?

/-- The three bits of the mode for a process: those for the owner and the creator, the group, or
    others. -/
def Segment.applicable (segment : Segment) (caller : Credentials) : UInt32 :=
  let groups := caller.group.effective :: caller.groups
  if caller.user.effective = segment.uid ∨
    caller.user.effective = segment.cuid then (segment.mode >>> 6) &&& 7
  else if segment.gid ∈ groups ∨ segment.cgid ∈ groups then (segment.mode >>> 3) &&& 7
  else segment.mode &&& 7

/-- What the mode and the owner of a segment should mean for a call of a process. -/
def Shm.Permitted (s : Shm) (caller : Credentials) : Call → Prop
  | .shmat id address flags range mapped =>
    ∀ mapping s', s.sysShmat id address flags range mapped = (.ok mapping, s') →
      caller.privileged = false →
      ∃ segment ∈ s.segment? id, segment.applicable caller &&& readBit ≠ 0 ∧
        (mapping.write = true → segment.applicable caller &&& writeBit ≠ 0)
  | .shmctl id command buffer writable =>
    ∀ s', s.sysShmctl id command buffer writable = (.ok (), s') →
      Command.ofNat? command ≠ some .stat →
      caller.privileged = false →
      ∃ segment ∈ s.segment? id, caller.user.effective = segment.uid ∨
        caller.user.effective = segment.cuid
  | _ => True

/-- The bits of a class let a process read, and write if it asks for that. -/
def Lets (bits : UInt32) (write : Bool) : Prop :=
  bits &&& readBit ≠ 0 ∧ (write = true → bits &&& writeBit ≠ 0)

/-- A mode lets a process use the segments that a user has made: its bits for the owner do, and if
    the process is of another user, also those for the group and for others. -/
def Grants (owner mode : UInt32) (caller : Credentials) (write : Bool) : Prop :=
  Lets ((mode >>> 6) &&& 7) write ∧
    (caller.user.effective ≠ owner → Lets ((mode >>> 3) &&& 7) write ∧ Lets (mode &&& 7) write)

/-- What is asked of the calls of a run. One user makes the segments, and only this user and root
    change or remove them; each mode is one of a list, and all of these let a process that attaches
    do so. Looking up a segment and asking for its state is free. -/
def Disciplined (owner : UInt32) (modes : List UInt32) : Credentials × Call → Prop
  | (caller, .shmget key _ flags _ _) => key = ipcPrivate ∨ flags &&& ipcCreat ≠ 0 →
    caller.user.effective = owner ∧ flags &&& 0x1FF ∈ modes
  | (caller, .shmat _ _ flags _ _) =>
    caller.privileged = true ∨ ∀ mode ∈ modes, Grants owner mode caller (flags &&& shmRdonly = 0)
  | (caller, .shmctl _ command buffer _) => Command.ofNat? command ≠ some .stat →
    (caller.privileged = true ∨ caller.user.effective = owner) ∧ ∀ value ∈ buffer,
      value.mode &&& 0x1FF ∈ modes
  | _ => True

/-! ## The table of segments -/

/-- Every segment was made by the user, and has one of the modes. -/
def Shm.Owned (owner : UInt32) (modes : List UInt32) (s : Shm) : Prop :=
  ∀ segment ∈ s.segments, segment.used = true → segment.cuid = owner ∧ segment.mode ∈ modes

private theorem mem_modify {α : Type*} {l : List α} {i : Nat} {f : α → α} {a : α}
    (h : a ∈ l.modify i f) :
    a ∈ l ∨ ∃ b ∈ l, a = f b := by
  induction l generalizing i with
  | nil => simp at h
  | cons b rest ih =>
    cases i with
    | zero =>
      rw [modify_zero_cons, mem_cons] at h
      rcases h with rfl | h
      · exact .inr ⟨b, mem_cons_self, rfl⟩
      · exact .inl (mem_cons_of_mem _ h)
    | succ i =>
      rw [modify_succ_cons, mem_cons] at h
      rcases h with rfl | h
      · exact .inl mem_cons_self
      rcases ih h with h | ⟨c, hc, rfl⟩
      · exact .inl (mem_cons_of_mem _ h)
      · exact .inr ⟨c, mem_cons_of_mem _ hc, rfl⟩

section Owned

variable {owner : UInt32} {modes : List UInt32} {s : Shm}

/-- A change of a segment that keeps creator and mode. -/
theorem Shm.Owned.modify (h : s.Owned owner modes) (i : Nat) {change : Segment → Segment}
    (hchange : ∀ segment, (segment.used = true → segment.cuid = owner ∧ segment.mode ∈ modes) →
      (change segment).used = true → (change segment).cuid = owner ∧
      (change segment).mode ∈ modes) :
    (s.modify i change).Owned owner modes := by
  intro segment hmem
  rcases mem_modify hmem with hmem | ⟨old, hold, rfl⟩
  · exact h segment hmem
  · exact hchange old (h old hold)

private theorem Shm.Owned.reap (h : s.Owned owner modes) : s.sysvshmReap.Owned owner modes := by
  intro segment hmem
  obtain ⟨old, hold, rfl⟩ := mem_map.mp hmem
  split
  · intro hused
    cases hused
  · exact h old hold

private theorem Shm.Owned.slot {s' : Shm} (h : s.Owned owner modes) {grown : Bool} {i : Nat}
    (hslot : s.slot grown = some (i, s')) : s'.Owned owner modes := by
  unfold Shm.slot at hslot
  cases hfree : s.segments.findIdx? fun segment => !segment.used with
  | some j =>
    rw [hfree] at hslot
    cases hslot
    exact h
  | none =>
    rw [hfree] at hslot
    obtain ⟨-, hslot⟩ := Option.ite_none_right_eq_some.mp hslot
    cases hslot
    intro segment hmem
    rcases mem_append.mp hmem with hmem | hmem
    · exact h segment hmem
    -- the new slots are not in use
    intro hused
    rw [(mem_replicate.mp hmem).2] at hused
    cases hused

/-! ## Calls -/

private theorem Shm.Owned.shmget (h : s.Owned owner modes) {caller : Credentials}
    {key : Int32} {size : UInt64}
    {flags : UInt32} {grown object : Bool}
    (hcreates : key = ipcPrivate ∨ flags &&& ipcCreat ≠ 0 →
      caller.user.effective = owner ∧ flags &&& 0x1FF ∈ modes) :
    (s.sysvshmGet caller key size flags grown object).2.Owned owner modes := by
  unfold Shm.sysvshmGet
  dsimp only
  cases s.sysvshmReap.findByKey key with
  | some existing =>
    dsimp only
    split_ifs <;> exact h.reap
  | none =>
    dsimp only
    split
    · exact h.reap
    next hnew =>
    split
    · exact h.reap
    -- A new segment gets the creator and the mode of this call.
    cases hslot : s.sysvshmReap.slot grown with
    | none => exact h.reap
    | some found =>
      obtain ⟨i, s'⟩ := found
      have hs' := h.reap.slot hslot
      dsimp only
      split
      · exact hs'.modify i fun _ _ _ => hcreates (by simpa [or_iff_not_imp_left] using hnew)
      · exact hs'

private theorem Shm.Owned.shmat (h : s.Owned owner modes) (id : Int32)
    (address : UInt64) (flags : UInt32)
    (range : Option UInt64) (mapped : Bool) :
    (s.sysShmat id address flags range mapped).2.Owned owner modes := by
  unfold Shm.sysShmat
  cases s.findById id with
  | none => exact h
  | some i =>
    dsimp only
    generalize (if address ≠ 0 then some (address &&& ~~~0xFFF) else range) = place
    split
    · exact h
    split
    · exact h
    cases place with
    | none => exact h
    | some base =>
      dsimp only
      split_ifs
      · exact h
      · exact h.modify i fun _ hsegment => hsegment
      · exact h

private theorem Shm.Owned.shmctl (h : s.Owned owner modes) {id : Int32} {command : UInt32}
    {buffer : Option ShmIdDs}
    {writable : Bool}
    (hset : Command.ofNat? command ≠ some .stat → ∀ value ∈ buffer, value.mode &&& 0x1FF ∈ modes) :
    (s.sysShmctl id command buffer writable).2.Owned owner modes := by
  unfold Shm.sysShmctl Shm.sysvshmRemove Shm.sysvshmSet
  cases hcommand : Command.ofNat? command with
  | none => exact h
  | some kind =>
    cases kind with
    | rmid =>
      cases s.findById id with
      | none => exact h
      | some i =>
        refine h.modify i fun segment hsegment => ?_
        split
        · exact hsegment
        · intro hused
          cases hused
    | set =>
      cases buffer with
      | none => exact h
      | some value =>
        have hmode := hset (by rw [hcommand]; nofun) value rfl
        cases s.findById id with
        | none => exact h
        | some i => exact h.modify i fun segment hsegment hused => ⟨(hsegment hused).1, hmode⟩
    | stat =>
      dsimp only
      split_ifs <;> exact h

/-- A call of a process. -/
def Shm.step (s : Shm) (action : Credentials × Call) : Option Shm := some (s.call action.1 action.2)

private theorem Shm.Owned.step {s' : Shm} (h : s.Owned owner modes) {action : Credentials × Call}
    (haction : Disciplined owner modes action) (hstep : s.step action = some s') :
    s'.Owned owner modes := by
  obtain ⟨caller, call⟩ := action
  obtain rfl := Option.some.inj hstep
  cases call with
  | shmget key size flags grown object => exact h.shmget haction
  | shmat id address flags range mapped => exact h.shmat id address flags range mapped
  | shmctl id command buffer writable => exact h.shmctl fun hstat => (haction hstat).2
  | areas slot count => exact h.modify slot fun _ hsegment => hsegment
  | reap => exact h.reap

/-- The id of a call that succeeds stands for a segment. -/
theorem Shm.segment?_of_findById {id : Int32} {i : Nat} (hfind : s.findById id = some i) :
    ∃ segment, s.segment? id = some segment ∧ segment ∈ s.segments ∧ segment.used = true := by
  obtain ⟨hid, hfind⟩ := Option.ite_none_left_eq_some.mp hfind
  obtain ⟨hlt, hused, -⟩ := findIdx?_eq_some_iff_getElem.mp hfind
  refine ⟨s.segments[i], ?_, getElem_mem hlt, ?_⟩
  · rw [Shm.segment?, Shm.findById, if_neg hid, hfind]
    exact getElem?_eq_getElem hlt
  · simp only [Bool.and_eq_true] at hused
    exact hused.1

/-- Whichever bits apply to a process, they let it in. -/
theorem Segment.applicable_lets {segment : Segment} {caller : Credentials} {write : Bool}
    (howner : segment.cuid = owner) (hgrants : Grants owner segment.mode caller write) :
    Lets (segment.applicable caller) write := by
  unfold Segment.applicable
  dsimp only
  split_ifs with hclass hgroup
  · exact hgrants.1
  · exact (hgrants.2 fun heq => hclass (.inr (heq.trans howner.symm))).1
  · exact (hgrants.2 fun heq => hclass (.inr (heq.trans howner.symm))).2

/-- What is attached was found, and is writable if the flags do not ask for reading only. -/
private theorem Shm.found_of_sysShmat {id : Int32} {address : UInt64} {flags : UInt32}
    {range : Option UInt64} {mapped : Bool} {mapping : Mapping} {s' : Shm}
    (hok : s.sysShmat id address flags range mapped = (.ok mapping, s')) :
    (∃ i, s.findById id = some i) ∧ mapping.write = (flags &&& shmRdonly = 0 : Bool) := by
  unfold Shm.sysShmat at hok
  cases hfind : s.findById id with
  | none =>
    rw [hfind] at hok
    cases hok
  | some i =>
    refine ⟨⟨i, rfl⟩, ?_⟩
    rw [hfind] at hok
    dsimp only at hok
    generalize (if address ≠ 0 then some (address &&& ~~~0xFFF) else range) = place at hok
    split at hok
    · cases hok
    split at hok
    · cases hok
    cases place with
    | none => cases hok
    | some base =>
      dsimp only at hok
      split_ifs at hok <;> cases hok
      rfl

/-- What is changed or removed was found. -/
private theorem Shm.found_of_sysShmctl {id : Int32} {command : UInt32}
    {buffer : Option ShmIdDs} {writable : Bool} {s' : Shm}
    (hok : s.sysShmctl id command buffer writable = (.ok (), s'))
    (hstat : Command.ofNat? command ≠ some .stat) : ∃ i, s.findById id = some i := by
  cases hfind : s.findById id with
  | none =>
    unfold Shm.sysShmctl Shm.sysvshmRemove Shm.sysvshmSet at hok
    rw [hfind] at hok
    cases hcommand : Command.ofNat? command with
    | none =>
      rw [hcommand] at hok
      cases hok
    | some kind =>
      rw [hcommand] at hok
      cases kind with
      | rmid => cases hok
      | set => cases buffer <;> cases hok
      | stat => exact absurd hcommand hstat
  | some i => exact ⟨i, rfl⟩

/-- Calls of such callers are permitted by the segment. -/
private theorem Shm.Owned.permitted (h : s.Owned owner modes) {caller : Credentials} {call : Call}
    (haction : Disciplined owner modes (caller, call)) : s.Permitted caller call := by
  cases call with
  | shmat id address flags range mapped =>
    intro mapping s' hok huser
    obtain ⟨⟨i, hfind⟩, hwrite⟩ := Shm.found_of_sysShmat hok
    obtain ⟨segment, hsegment, hmem, hused⟩ := Shm.segment?_of_findById hfind
    obtain ⟨howner, hmode⟩ := h segment hmem hused
    have hgrants : Grants owner segment.mode caller (flags &&& shmRdonly = 0) := by
      rcases haction with hroot | hall
      · rw [huser] at hroot
        cases hroot
      · exact hall segment.mode hmode
    have hlets := Segment.applicable_lets howner hgrants
    exact ⟨segment, hsegment, hlets.1, fun hasks => hlets.2 (hwrite ▸ hasks)⟩
  | shmctl id command buffer writable =>
    intro s' hok hstat huser
    obtain ⟨i, hfind⟩ := Shm.found_of_sysShmctl hok hstat
    obtain ⟨segment, hsegment, hmem, hused⟩ := Shm.segment?_of_findById hfind
    rcases (haction hstat).1 with hroot | hcaller
    · rw [huser] at hroot
      cases hroot
    · exact ⟨segment, hsegment, .inr (hcaller.trans (h segment hmem hused).1.symm)⟩
  | shmget => trivial
  | areas => trivial
  | reap => trivial

/-- There are no segments. -/
def noSegments : Shm := ⟨[], 1⟩

/-- In a run in which one user makes, changes and removes the segments, with modes that let those
    who attach do so, every call is permitted. -/
theorem permitted_of_run {actions : List (Credentials × Call)}
    (hactions : ∀ action ∈ actions, Disciplined owner modes action) :
    Steps.Always Shm.step (fun s action => s.Permitted action.1 action.2) noSegments actions := by
  have hstep : ∀ (s : Shm) (action : Credentials × Call) (s' : Shm), s.Owned owner modes →
      Disciplined owner modes action → s.step action = some s' → s'.Owned owner modes :=
    fun s action s' h haction hstep => h.step haction hstep
  have hnone : noSegments.Owned owner modes := nofun
  exact Steps.Always.mono hstep (fun s action h haction => h.permitted haction) hnone
    (Steps.Always.of_forall (fun action hmem _ => hactions action hmem) noSegments)

end Owned

/-- A user without further groups. -/
def user (id : UInt32) : Credentials := ⟨⟨id, id, id, id⟩, ⟨id, id, id, id⟩, []⟩

/-- A user makes a segment for everybody and maps it, another user looks it up and maps it for
    reading, and the first one closes it to writers and removes it. -/
def sharedSegment : List (Credentials × Call) :=
  [(user 1000, .shmget 7 4096 (ipcCreat ||| 0x1B6) true true),
    (user 1000, .shmat 1 0 shmRdonly (some 0x10000) true),
    (user 1001, .shmget 7 0 0 true true), (user 1001, .shmat 1 0 shmRdonly (some 0x20000) true),
    (user 1001, .shmctl 1 2 none true), (user 1000, .shmctl 1 1 (some ⟨0x1A4, 1000, 50⟩) true),
    (user 1000, .shmctl 1 0 none true)]

/-- A segment of a group that its members share. -/
theorem sharedSegment_permitted :
    Steps.Always Shm.step (fun s action => s.Permitted action.1 action.2) noSegments
      sharedSegment := by
  have hgrants : ∀ mode ∈ [0x1B6, 0x1A4], ∀ caller, Grants 1000 mode caller false := by
    intro mode hmode caller
    have hlets : Lets ((mode >>> 6) &&& 7) false ∧ Lets ((mode >>> 3) &&& 7) false ∧
        Lets (mode &&& 7) false := by
      unfold Lets
      rcases List.mem_pair.mp hmode with rfl | rfl <;> decide
    exact ⟨hlets.1, fun _ => hlets.2⟩
  have hactions : ∀ action ∈ sharedSegment, Disciplined 1000 [0x1B6, 0x1A4] action := by
    simp only [sharedSegment, forall_mem_cons]
    exact ⟨fun _ => ⟨rfl, by decide⟩, .inr fun mode hmode => hgrants mode hmode _,
      fun hnew => absurd hnew (by decide), .inr fun mode hmode => hgrants mode hmode _,
      fun hstat => absurd rfl hstat, fun _ => ⟨.inr rfl, by decide⟩,
        fun _ => ⟨.inr rfl, nofun⟩, nofun⟩
  exact permitted_of_run hactions

/-- A segment with mode 0600 is mapped for writing by another user, who then removes it. -/
theorem secret_attached :
    ∃ s, noSegments.step (user 1000, .shmget 7 4096 (ipcCreat ||| 0x180) true true) = some s ∧
    (s.sysShmat 1 0 0 (some 0x10000) true).1 = .ok ⟨0x10000, true⟩ ∧
    ¬s.Permitted (user 1001) (.shmat 1 0 0 (some 0x10000) true) ∧
    (s.sysShmctl 1 0 none true).1 = .ok () ∧ ¬s.Permitted (user 1001) (.shmctl 1 0 none true) := by
  refine ⟨_, rfl, by decide +kernel, fun hpermitted => ?_, by decide +kernel, fun hpermitted => ?_⟩
  · obtain ⟨segment, hsegment, hread, -⟩ := hpermitted ⟨0x10000, true⟩ _ rfl (by decide)
    cases hsegment
    exact hread (by decide +kernel)
  · obtain ⟨segment, hsegment, howner⟩ := hpermitted _ rfl (by decide +kernel) (by decide)
    cases hsegment
    exact absurd howner (by decide +kernel)

end Tunix.SysvShm
