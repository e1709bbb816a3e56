import Tunix.Kernel.Acl

/-!
# Access control lists and POSIX.1e

`posixGrants` is the access check algorithm of POSIX.1e on the entries of a list, in whatever order
they are given. `credMay` on the node to which `apply` has stored the list decides as it does, but
for one case: a list without named entries keeps no mask, and the group's entry counts in full
(`credMay_eq_posix_iff`).
-/

namespace Tunix.Core

open Bytes Fs List Option
open UInt32 (ofNat and_assoc)

/-! ## The algorithm -/

/-- The permissions of an entry that a list has at most once. -/
def singlePerm (raw : List RawEntry) (which : Single) : Option UInt32 :=
  (raw.find? fun entry => Tag.ofCode entry.tag = some (.single which)).map fun entry =>
    entry.perm.toUInt32

def RawEntry.named? (entry : RawEntry) : Option AclEntry := match Tag.ofCode entry.tag with
  | some (.named tag) => some ⟨tag, entry.perm.toUInt32, entry.id⟩
  | _ => none

def namedEntries (raw : List RawEntry) : List AclEntry := raw.filterMap RawEntry.named?

/-- The permissions in the entries of the groups that a process is in. -/
def groupPerms (raw : List RawEntry) (gid : UInt32) (cred : Credentials) : List UInt32 :=
  (if cred.inFileGroup gid then (singlePerm raw .groupObj).toList else []) ++
    ((namedEntries raw).filter fun entry =>
      entry.tag = .group && cred.inFileGroup entry.id).map AclEntry.perm

/-- The access check of POSIX.1e for a file of an owner and a group. -/
def posixGrants (raw : List RawEntry) (uid gid : UInt32) (cred : Credentials) (want : UInt32) :
    Bool :=
  let masked (perm : UInt32) := covers (perm &&& (singlePerm raw .mask).getD 7) want
  if cred.user.fs = uid then covers ((singlePerm raw .userObj).getD 0) want
  else
    match (namedEntries raw).find? fun entry => entry.tag = .user && entry.id = cred.user.fs with
    | some entry => masked entry.perm
    | none =>
      if groupPerms raw gid cred ≠ [] then (groupPerms raw gid cred).any masked
      else covers ((singlePerm raw .other).getD 0) want

/-- The algorithm, and then what the superuser may. -/
def posixMay (raw : List RawEntry) (access : Access) (cred : Credentials) (kind : NodeKind)
    (want : UInt32) :
    Except Errno Unit :=
  if posixGrants raw access.uid access.gid cred want then .ok ()
  else if cred.user.fs = 0 ∧
    (want &&& credExec = 0 ∨ kind = .directory ∨ access.mode &&& 0o111 ≠ 0) then .ok ()
  else .error .acces

/-! ## Reading the entries -/

private theorem Scan.add_eq_some {scan scan' : Scan} {entry : RawEntry}
    (h : scan.add entry = some scan') :
    entry.perm ≤ 7 ∧
      ((∃ which, Tag.ofCode entry.tag = some (.single which) ∧ scan.single which = none ∧
          scan' = { scan with
            single := Function.update scan.single which (some entry.perm.toUInt32) }) ∨
        ∃ tag, Tag.ofCode entry.tag = some (.named tag) ∧
          scan' = { scan with named := scan.named ++ [⟨tag, entry.perm.toUInt32, entry.id⟩] }) := by
  obtain ⟨hperm, h⟩ := ite_none_left_eq_some.mp h
  refine ⟨UInt16.not_lt.mp hperm, ?_⟩
  cases htag : Tag.ofCode entry.tag with
  | none => simp [htag] at h
  | some tag =>
    cases tag with
    | single which =>
      simp only [htag, ite_none_left_eq_some, some.injEq, not_isSome_iff_eq_none] at h
      exact .inl ⟨which, rfl, h.1, h.2.symm⟩
    | named tag =>
      simp only [htag, some.injEq] at h
      exact .inr ⟨tag, rfl, h.symm⟩

/-- The loop finds each single entry and all named ones. -/
theorem scan_eq {raw : List RawEntry}
    {scan scan' : Scan} (h : raw.foldlM Scan.add scan = some scan') :
    (∀ which, scan'.single which = (scan.single which).or (singlePerm raw which)) ∧
      scan'.named = scan.named ++ namedEntries raw ∧ ∀ entry ∈ raw, entry.perm ≤ 7 := by
  induction raw generalizing scan with
  | nil =>
    obtain rfl : scan = scan' := by simpa using h
    exact ⟨fun which => by simp [singlePerm], by simp [namedEntries], nofun⟩
  | cons entry raw ih =>
    rw [foldlM_cons, bind_eq_bind, bind_eq_some_iff] at h
    obtain ⟨mid, hmid, hrest⟩ := h
    obtain ⟨hsingle, hnamed, hperms⟩ := ih hrest
    obtain ⟨hperm, hcases⟩ := Scan.add_eq_some hmid
    refine ⟨fun which => ?_, ?_, forall_mem_cons.mpr ⟨hperm, hperms⟩⟩
    · rw [hsingle]
      rcases hcases with ⟨found, htag, hnone, rfl⟩ | ⟨tag, htag, rfl⟩
      -- A second entry with the same tag is refused, so the first one is found.
      · by_cases heq : which = found
        · subst heq
          simp [singlePerm, htag, hnone]
        · simp [singlePerm, htag, heq, Ne.symm heq]
      · simp [singlePerm, htag]
    · rw [hnamed]
      rcases hcases with ⟨found, htag, -, rfl⟩ | ⟨tag, htag, rfl⟩
      · simp [namedEntries, RawEntry.named?, htag]
      · simp [namedEntries, RawEntry.named?, htag]

/-! ## Sorting -/

/-- The place of an entry in the order. -/
def AclEntry.key (entry : AclEntry) : Nat := entry.tag.code * 2 ^ 32 + entry.id.toNat

private theorem key_inj {a b : AclEntry} : a.key = b.key ↔ a.tag = b.tag ∧ a.id = b.id := by
  have ha := a.id.toNat_lt
  have hb := b.id.toNat_lt
  unfold AclEntry.key
  rw [← UInt32.toNat_inj]
  cases a.tag <;> cases b.tag <;> simp [AclTag.code] <;> omega

private theorem entryBefore_eq_false {a b : AclEntry} :
    entryBefore a b = false ↔ b.key ≤ a.key := by
  have ha := a.id.toNat_lt
  have hb := b.id.toNat_lt
  unfold entryBefore AclEntry.key
  cases a.tag <;> cases b.tag <;> simp [AclTag.code, UInt32.le_iff_toNat_le] <;> omega

private theorem sortEntries_perm (named : List AclEntry) : (sortEntries named).Perm named := by
  unfold sortEntries
  rw [← foldr_reverse]
  exact (reverse_perm _).trans ((perm_insertionSort _ _).trans (reverse_perm _))

private theorem sortEntries_sorted (named : List AclEntry) :
    (sortEntries named).Pairwise fun a b => a.key ≤ b.key := by
  unfold sortEntries
  rw [← foldr_reverse, pairwise_reverse]
  have : Std.Total (fun a b => entryBefore a b = false) := ⟨fun a b => by
    rw [entryBefore_eq_false, entryBefore_eq_false]
    exact le_total _ _⟩
  have : IsTrans AclEntry (fun a b => entryBefore a b = false) := ⟨fun a b c hab hbc => by
    rw [entryBefore_eq_false] at hab hbc ⊢
    exact le_trans hbc hab⟩
  exact (pairwise_insertionSort _ _).imp fun h => entryBefore_eq_false.mp h

/-- In a sorted list entries that are the same are next to each other. -/
theorem pairwise_lt_of_hasTwins {l : List AclEntry} (hsorted : l.Pairwise fun a b => a.key ≤ b.key)
    (htwins : hasTwins l = false) : l.Pairwise fun a b => a.key < b.key := by
  induction l with
  | nil => exact .nil
  | cons a rest ih =>
    obtain ⟨ha, hrest⟩ := pairwise_cons.mp hsorted
    cases rest with
    | nil => exact pairwise_singleton _ _
    | cons b rest =>
      simp only [hasTwins, Bool.or_eq_false_iff] at htwins
      have hne : a.key ≠ b.key := by
        rw [Ne, key_inj]
        rintro ⟨htag, hid⟩
        simp [htag, hid] at htwins
      have hab : a.key < b.key := Nat.lt_of_le_of_ne (ha b mem_cons_self) hne
      refine pairwise_cons.mpr ⟨fun c hc => ?_, ih hrest htwins.2⟩
      rcases mem_cons.mp hc with rfl | hc
      · exact hab
      · exact lt_of_lt_of_le hab ((pairwise_cons.mp hrest).1 c hc)

/-- What is found in a list where at most one element is sought does not depend on its order. -/
theorem find?_eq_of_perm {α : Type*} {p : α → Bool} {l l' : List α} (hperm : l.Perm l')
    (hunique : ∀ a ∈ l', ∀ b ∈ l', p a → p b → a = b) : l.find? p = l'.find? p := by
  cases hfind : l'.find? p with
  | none =>
    rw [find?_eq_none] at hfind ⊢
    exact fun a ha => hfind a (hperm.mem_iff.mp ha)
  | some b =>
    have hb := find?_some hfind
    have hbmem := mem_of_find?_eq_some hfind
    cases hfind' : l.find? p with
    | none =>
      rw [find?_eq_none] at hfind'
      exact absurd hb (hfind' b (hperm.mem_iff.mpr hbmem))
    | some a =>
      have hamem := hperm.mem_iff.mp (mem_of_find?_eq_some hfind')
      rw [hunique a hamem b hbmem (find?_some hfind') hb]

/-! ## The mode -/

/-- The mode of a node with the bits for owner, group and others that a list gives it. -/
def storedMode (mode user group other : UInt32) : UInt32 :=
  (mode &&& ~~~(0o777 : UInt32)) ||| (user <<< 6) ||| (group <<< 3) ||| other

/-- Permissions are one of eight values. -/
theorem exists_fin_eight {perm : UInt32} (h : perm ≤ 7) : ∃ n : Fin 8, perm = ofNat n :=
  ⟨⟨perm.toNat, Nat.lt_succ_of_le (UInt32.le_iff_toNat_le.mp h)⟩, (UInt32.ofNat_toNat).symm⟩

private theorem and_seven {perm : UInt32} (h : perm ≤ 7) : perm &&& 7 = perm := by
  obtain ⟨n, rfl⟩ := exists_fin_eight h
  revert n
  decide

/-- The three digits of the mode. -/
private theorem storedMode_bits (mode : UInt32) {user group other : UInt32} (huser : user ≤ 7)
    (hgroup : group ≤ 7)
    (hother : other ≤ 7) : (storedMode mode user group other >>> 6) &&& 7 = user ∧
      (storedMode mode user group other >>> 3) &&& 7 = group ∧
        storedMode mode user group other &&& 7 = other := by
  -- the nine bits do not depend on the mode before
  have hlow : storedMode mode user group other &&& 0o777 =
      storedMode 0 user group other &&& 0o777 := by
    unfold storedMode
    simp only [Bytes.or_and_mask, UInt32.and_assoc, UInt32.zero_and]
    rw [show ~~~(0o777 : UInt32) &&& 0o777 = 0 by decide, UInt32.and_zero]
  have hbits : ∀ v w : UInt32, v &&& (0o777 : UInt32) = w &&& (0o777 : UInt32) →
      (v >>> 6) &&& (7 : UInt32) = (w >>> 6) &&& 7 ∧ (v >>> 3) &&& (7 : UInt32) = (w >>> 3) &&& 7 ∧
        v &&& 7 = w &&& 7 := by
    intro v w h
    have hand : ∀ k m : UInt32, ((0o777 : UInt32) >>> k) &&& m = m →
        (v >>> k) &&& m = (w >>> k) &&& m := by
      intro k m hk
      rw [← hk, ← UInt32.and_assoc, ← UInt32.and_assoc, ← UInt32.shiftRight_and,
        ← UInt32.shiftRight_and, h]
    refine ⟨hand 6 7 (by decide), hand 3 7 (by decide), ?_⟩
    have hzero := hand 0 7 (by decide)
    rwa [UInt32.shiftRight_zero, UInt32.shiftRight_zero] at hzero
  obtain ⟨hsix, hthree, hzero⟩ := hbits _ _ hlow
  rw [hsix, hthree, hzero]
  obtain ⟨u, rfl⟩ := exists_fin_eight huser
  obtain ⟨g, rfl⟩ := exists_fin_eight hgroup
  obtain ⟨o, rfl⟩ := exists_fin_eight hother
  have hplain :
      ∀ u g o : Fin 8, (storedMode 0 (ofNat u) (ofNat g) (ofNat o) >>> 6) &&& 7 = ofNat u ∧
      (storedMode 0 (ofNat u) (ofNat g) (ofNat o) >>> 3) &&& 7 = ofNat g ∧
      storedMode 0 (ofNat u) (ofNat g) (ofNat o) &&& 7 = ofNat o := by
    decide +kernel
  exact hplain u g o

/-! ## Decisions -/

/-- What `apply` has accepted, and what it has stored. -/
structure Accepted (raw : List RawEntry) (access access' : Access) (user group others : UInt32) :
    Prop where
  userObj : singlePerm raw .userObj = some user
  groupObj : singlePerm raw .groupObj = some group
  other : singlePerm raw .other = some others
  mask : namedEntries raw ≠ [] → singlePerm raw .mask ≠ none
  small : ∀ which perm, singlePerm raw which = some perm → perm ≤ 7
  distinct : ((namedEntries raw).map AclEntry.key).Nodup
  stored : access' = { access with
    mode := storedMode access.mode user
      (if namedEntries raw ≠ [] then (singlePerm raw .mask).getD 0 else group) others
    acl := if namedEntries raw ≠ [] then some ⟨group, sortEntries (namedEntries raw)⟩ else none }

variable {raw : List RawEntry} {access access' : Access} {user group others want : UInt32}
    {cred : Credentials}
  {value : Buffer} {size : Nat} {memory : Bool}

/-- What a list that is taken looks like. -/
private theorem accepted_of_apply (h : access.apply value size memory = .ok access') :
    ∃ userObj groupObj other,
      Accepted (rawEntries value ((size - 4) / 8)) access access' userObj groupObj other := by
  unfold Access.apply at h
  dsimp only at h
  split at h
  · cases h
  split at h
  · cases h
  split at h
  · cases h
  -- What the scan has found are the entries of the list, sorted by what they are.
  cases hscan : (rawEntries value ((size - 4) / 8)).foldlM Scan.add Scan.empty with
  | none => simp [hscan] at h
  | some scan =>
    obtain ⟨hsingle, hnamed, hperms⟩ := scan_eq hscan
    simp only [Scan.empty, none_or, nil_append] at hsingle hnamed
    simp only [hscan, hsingle, hnamed] at h
    generalize hraw : rawEntries value ((size - 4) / 8) = raw at *
    cases huser : singlePerm raw .userObj with
    | none => simp [huser] at h
    | some userObj =>
    cases hgroup : singlePerm raw .groupObj with
    | none => simp [huser, hgroup] at h
    | some groupObj =>
    cases hother : singlePerm raw .other with
    | none => simp [huser, hgroup, hother] at h
    | some other =>
    simp only [huser, hgroup, hother] at h
    split at h
    · cases h
    next hmask =>
    split at h
    · cases h
    next htwins =>
    split at h
    · cases h
    have hempty : sortEntries (namedEntries raw) ≠ [] ↔ namedEntries raw ≠ [] := by
      rw [Ne, Ne, ← length_eq_zero_iff, ← length_eq_zero_iff, (sortEntries_perm _).length_eq]
    simp only [hempty] at h
    refine ⟨userObj, groupObj, other, huser, hgroup, hother,
      fun hne hnone => hmask ⟨hne, hnone⟩, ?_, ?_,
      (Except.ok.inj h).symm⟩
    · intro which perm hperm
      obtain ⟨entry, hentry, rfl⟩ := map_eq_some_iff.mp hperm
      have hle := UInt16.le_iff_toNat_le.mp (hperms entry (mem_of_find?_eq_some hentry))
      exact hle
    -- Twins are neighbours after the sort.
    · have hlt := pairwise_lt_of_hasTwins (sortEntries_sorted _) (by simpa using htwins)
      have hnodup : ((sortEntries (namedEntries raw)).map AclEntry.key).Nodup :=
        pairwise_map.mpr (hlt.imp fun h => ne_of_lt h)
      exact ((sortEntries_perm _).map _).nodup_iff.mp hnodup

private theorem covers_zero (perm : UInt32) : covers perm 0 = true := by
  unfold covers
  simp

private theorem posixGrants_zero (raw : List RawEntry) (uid gid : UInt32) (cred : Credentials) :
    posixGrants raw uid gid cred 0 = true := by
  unfold posixGrants
  split
  · exact covers_zero _
  split
  · exact covers_zero _
  split
  · next hne =>
    obtain ⟨perm, hperm⟩ := exists_mem_of_ne_nil _ hne
    exact any_eq_true.mpr ⟨perm, hperm, covers_zero _⟩
  · exact covers_zero _

/-- The bits that `cred_may` finds cover what is wanted if the algorithm grants it. -/
def Agrees (raw : List RawEntry) (access : Access) (cred : Credentials) (want : UInt32) : Prop :=
  covers (access.allowed cred want) want = posixGrants raw access.uid access.gid cred want

private theorem credMay_eq_of_agrees (h : want ≠ 0 → Agrees raw access cred want)
    (kind : NodeKind) :
    credMay cred kind access want = posixMay raw access cred kind want := by
  unfold credMay posixMay
  by_cases hwant : want = 0
  · -- nothing is wanted, and both grant it
    rw [if_pos hwant, hwant, posixGrants_zero, if_pos rfl]
  · rw [if_neg hwant, h hwant]

/-- With named entries the stored list decides as the algorithm does. -/
theorem Accepted.agrees_named (h : Accepted raw access access' user group others)
    (hnamed : namedEntries raw ≠ [])
    (cred : Credentials) (hwant : want ≠ 0) : Agrees raw access' cred want := by
  obtain ⟨mask, hmask⟩ := ne_none_iff_exists'.mp (h.mask hnamed)
  obtain ⟨huser, hgroup, hother⟩ :=
    storedMode_bits access.mode (h.small _ _ h.userObj) (h.small _ _ hmask)
    (h.small _ _ h.other)
  have hstored := h.stored
  rw [if_pos hnamed, if_pos hnamed, hmask, getD_some] at hstored
  have hgranted : ∀ granted : Bool, covers (if granted then want else 0) want = granted := by
    intro granted
    cases granted with
    | false => simpa [covers] using hwant.symm
    | true => simp [covers]
  have hperm := sortEntries_perm (namedEntries raw)
  have hfilter := hperm.filter fun entry => entry.tag = .group && cred.inFileGroup entry.id
  -- a user has one entry at most
  have hfind :
      (sortEntries (namedEntries raw)).find?
        (fun entry => entry.tag = .user && entry.id = cred.user.fs) =
      (namedEntries raw).find? fun entry => entry.tag = .user && entry.id = cred.user.fs := by
    refine find?_eq_of_perm hperm fun a ha b hb hpa hpb => ?_
    simp only [Bool.and_eq_true, decide_eq_true_eq] at hpa hpb
    refine inj_on_of_nodup_map h.distinct ha hb (key_inj.mpr ⟨?_, ?_⟩)
    · rw [hpa.1, hpb.1]
    · rw [hpa.2, hpb.2]
  unfold Agrees Access.allowed Access.aclPermission posixGrants groupPerms
  rw [hstored]
  by_cases howner : cred.user.fs = access.uid
  · simp only [if_pos howner, huser, h.userObj, getD_some]
  simp only [if_neg howner, map_some, hgranted]
  unfold Acl.permits
  dsimp only
  rw [hfind, hgroup, hother, hmask, h.groupObj, h.other]
  cases (namedEntries raw).find? fun entry => entry.tag = .user && entry.id = cred.user.fs with
  | some entry => rfl
  | none =>
    rw [hfilter.any_eq, hfilter.isEmpty_eq]
    generalize (namedEntries raw).filter
      (fun entry => entry.tag = .group && cred.inFileGroup entry.id) = groups
    rw [Bool.eq_iff_iff]
    cases cred.inFileGroup access.gid <;> cases groups <;> simp

/-- A list without named entries is only a mode, and what it allows the group is not masked. -/
theorem Accepted.agrees_minimal (h : Accepted raw access access' user group others)
    (hnamed : namedEntries raw = [])
    (hmask : group &&& (singlePerm raw .mask).getD 7 = group) (cred : Credentials) (want : UInt32) :
    Agrees raw access' cred want := by
  obtain ⟨huser, hgroup, hother⟩ :=
    storedMode_bits access.mode (h.small _ _ h.userObj) (h.small _ _ h.groupObj)
    (h.small _ _ h.other)
  have hstored := h.stored
  rw [if_neg (not_not.mpr hnamed), if_neg (not_not.mpr hnamed)] at hstored
  unfold Agrees Access.allowed Access.aclPermission posixGrants groupPerms
  rw [hstored, hnamed]
  by_cases howner : cred.user.fs = access.uid
  · simp only [if_pos howner, huser, h.userObj, getD_some]
  simp only [if_neg howner, hgroup, hother, find?_nil, h.groupObj, h.other]
  cases cred.inFileGroup access.gid with
  | false => simp
  | true => simp [hmask]

/-- The list has named entries, or no mask that takes something from the group. -/
def MaskKept (raw : List RawEntry) : Prop :=
  namedEntries raw ≠ [] ∨ ∀ mask ∈ singlePerm raw .mask, ∀ group ∈ singlePerm raw .groupObj,
    group &&& mask = group

/-- A user of a group who is neither the root nor the given one. -/
def member (uid gid : UInt32) : Credentials :=
  let id : UInt32 := if uid = 1 then 2 else 1
  ⟨⟨id, id, id, id⟩, ⟨gid, gid, gid, gid⟩, []⟩

private theorem member_fs_ne (uid gid : UInt32) :
    (member uid gid).user.fs ≠ uid ∧ (member uid gid).user.fs ≠ 0 := by
  unfold member
  dsimp only
  split
  · next h =>
    rw [h]
    decide
  · next h => exact ⟨Ne.symm h, by decide⟩

/-- For every list that `apply` accepts, `cred_may` decides on the node as POSIX.1e does for all
    processes and all that they may want, if and only if the list has named entries or no mask below
    the group's entry. -/
theorem credMay_eq_posix_iff (h : access.apply value size memory = .ok access') :
    (∀ cred kind want, credMay cred kind access' want =
        posixMay (rawEntries value ((size - 4) / 8)) access' cred kind want) ↔
      MaskKept (rawEntries value ((size - 4) / 8)) := by
  obtain ⟨user, group, others, haccepted⟩ := accepted_of_apply h
  generalize rawEntries value ((size - 4) / 8) = raw at haccepted ⊢
  constructor
  · intro hall
    by_contra hkept
    unfold MaskKept at hkept
    simp only [not_or, not_not, not_forall] at hkept
    obtain ⟨hnamed, mask, hmask, group', hgroup', hne⟩ := hkept
    obtain rfl : group = group' := Option.some.inj (haccepted.groupObj.symm.trans hgroup')
    have hmask : singlePerm raw .mask = some mask := hmask
    -- a member of the group who wants all that the group's entry has
    obtain ⟨huid, hroot⟩ := member_fs_ne access.uid access.gid
    have hmember : ∀ gid, (member access.uid gid).inFileGroup gid = true := fun gid => by
      simp [member, Credentials.inFileGroup]
    obtain ⟨-, hbits, -⟩ := storedMode_bits access.mode (haccepted.small _ _ haccepted.userObj)
      (haccepted.small _ _ haccepted.groupObj) (haccepted.small _ _ haccepted.other)
    have hcase := hall (member access.uid access.gid) .file group
    rw [haccepted.stored, if_neg (not_not.mpr hnamed), if_neg (not_not.mpr hnamed)] at hcase
    simp [credMay, posixMay, Access.allowed, Access.aclPermission, posixGrants, groupPerms,
      hnamed, huid, hroot,
      hmember, hbits, hmask, haccepted.groupObj, covers, UInt32.and_assoc,
        UInt32.and_comm mask] at hcase
    rw [← UInt32.and_assoc, UInt32.and_self] at hcase
    exact hne hcase
  · intro hkept cred kind want
    refine credMay_eq_of_agrees (fun hwant => ?_) kind
    by_cases hnamed : namedEntries raw = []
    · refine haccepted.agrees_minimal hnamed ?_ cred want
      cases hmask : singlePerm raw .mask with
      | none => exact and_seven (haccepted.small _ _ haccepted.groupObj)
      | some mask =>
        exact (hkept.resolve_left (not_not.mpr hnamed)) mask hmask group haccepted.groupObj
    · exact haccepted.agrees_named hnamed cred hwant

/-- The value of an attribute from its bytes. -/
def valueOf (bytes : List UInt8) : Buffer := fun i => bytes.getD i 0

/-- One entry of an attribute, for an id below 256. -/
def entryBytes (tag perm id : UInt8) : List UInt8 := [tag, 0, perm, 0, id, 0, 0, 0]

/-- A file of the user 10 and the group 20 with mode 0640. -/
def plainFile : Access := ⟨10, 20, 0o100640, none⟩

/-- Owner `rw`, user 30 `rw`, group `rw`, mask `r`, others nothing. -/
def maskedUser : List UInt8 :=
  [2, 0, 0, 0] ++ entryBytes 1 6 255 ++ entryBytes 2 6 30 ++ entryBytes 4 6 255 ++
    entryBytes 16 4 255 ++
    entryBytes 32 0 255

/-- A list whose mask takes a right from a named user. -/
theorem maskedUser_posix : ∃ access, plainFile.apply (valueOf maskedUser) 44 true = .ok access ∧
    ∀ cred kind want,
      credMay cred kind access want =
        posixMay (rawEntries (valueOf maskedUser) 5) access cred kind want := by
  obtain ⟨access, haccess⟩ :
      ∃ access, plainFile.apply (valueOf maskedUser) 44 true = .ok access := ⟨_, rfl⟩
  exact ⟨access, haccess, (credMay_eq_posix_iff haccess).mpr (.inl (by decide +kernel))⟩

/-- Owner `rw`, group `rw`, mask `r`, others nothing. -/
def maskedGroup : List UInt8 :=
  [2, 0, 0, 0] ++ entryBytes 1 6 255 ++ entryBytes 4 6 255 ++ entryBytes 16 4 255 ++
    entryBytes 32 0 255

/-- A user of the group may write, though the mask does not let it. -/
theorem maskedGroup_writes : ∃ access, plainFile.apply (valueOf maskedGroup) 36 true = .ok access ∧
    credMay (member 10 20) .file access credWrite = .ok () ∧
    posixMay (rawEntries (valueOf maskedGroup) 4) access
      (member 10 20) .file credWrite = .error .acces :=
  ⟨_, rfl, rfl, rfl⟩

end Tunix.Core
