import Mathlib.Data.List.Pairwise
import Tunix.Spec.VfsCalls

/-!
# Renames, and runs of calls on the name tree

A rename cuts an entry off and puts it, with what is below it, into another directory. It comes back
to the tree if that directory is not below the entry, and if no other entry there has the name.
-/

namespace Tunix.Fs

open DoublyLinked ParentChain Steps Table Option Vfs

section Rename

variable {s s' : Vfs} {kids : Nat → List Nat} {p : Process} {x d : Nat} {name : Name}

/-- A child with a name that is not there yet can be attached to a directory. -/
theorem Vfs.Shape.attach_isSome {top : Option Nat} (hs : s.Shape top kids)
    (hkind : (s.node d).kind = .directory)
    (hnames : ∀ y ∈ kids d, (s.node y).name ≠ (s.node x).name) :
    ∃ s', s.attach p true d x = some s' := by
  have hfree : s.findEntry d (s.node x).name = none := (hs.findEntry_none hkind).mpr hnames
  rw [Vfs.attach, if_neg (not_not.mpr hkind), Vfs.findChild, hfree, if_neg (by simp)]
  exact ⟨_, rfl⟩

/-- The name of what is cut off is on no list, so it may change. -/
theorem Vfs.Shape.setName (hs : s.Shape (some x) kids) (hx : s.parent x = none) (name : Name) :
    (s.set x ({ · with name := name })).Shape (some x) kids := by
  have hother : ∀ d, ∀ z ∈ kids d, z ≠ x := by
    intro d z hz heq
    have hz' := (hs.rooted.kids_parent hz).1
    rw [heq, hx] at hz'
    cases hz'
  refine hs.congr (fun z => ?_) (fun d z hz => ?_) (fun z target hz => ?_) rfl
  · exact field_modify s.node VfsNode.frame (by exact fun _ => rfl) x z
  · rw [node_set, if_neg (hother d z hz)]
  · rw [node_set] at hz
    split_ifs at hz <;> exact hz

/-- Names of one directory are apart. -/
theorem Vfs.Shape.name_ne {top : Option Nat} {y : Nat} (hs : s.Shape top kids) (hx : x ∈ kids d)
    (hy : y ∈ kids d) (hne : x ≠ y) : (s.node x).name ≠ (s.node y).name :=
  haveI : Std.Symm fun x y => (s.node x).name ≠ (s.node y).name := ⟨fun _ _ h => h.symm⟩
  (hs.named.names d).forall hx hy hne

/-- An entry goes to another directory, or back to its own if there is no memory for the name. -/
theorem Vfs.Shape.move {memory : Memory} {oldParent newParent : Nat} (hs : s.Shape none kids)
    (hmemory : memory.Indexes) (hx : x ∈ kids oldParent)
    (hkind : (s.node newParent).kind = .directory)
    (hinside : (s.parent newParent).isSome) (hbelow : ¬ Climbs s.parent newParent x)
    (hnames : ∀ y ∈ kids newParent, y ≠ x → (s.node y).name ≠ name)
    (hlength : name.length ≤ vfsNameMax) :
    ∃ kids, (s.move p memory oldParent x newParent name).Shape none kids := by
  obtain ⟨s', hdetach, hs', hnext, hparent, hnode⟩ := hs.detach hx
  have hkids : ∀ d y, y ∈ dropKid kids oldParent x d ↔ y ∈ kids d ∧ y ≠ x :=
    fun d y => hs.mem_dropKid hx
  obtain ⟨hxparent, hxroot⟩ := hs.rooted.kids_parent hx
  have hcut : s'.parent x = none := by rw [hparent, if_pos rfl]
  have hsmall : x < s'.nextNode := hnext ▸ hs.kids_small hx
  -- a place that is not below the entry is still in the tree
  have hplace : ∀ d, (s.parent d).isSome → ¬ Climbs s.parent d x → Climbs s'.parent d vfsRoot := by
    intro d hd hnot
    refine ((hs.climbs_root hd).cut fun a ha => by
      rw [hparent, if_neg ha]).resolve_right fun hclimb => ?_
    refine hnot (hclimb.mono fun a b hab => ?_)
    rw [hparent] at hab
    split_ifs at hab
    exact hab
  rw [Vfs.move, hdetach]
  dsimp only
  rw [hmemory.index, hmemory.index]
  split_ifs
  · -- back to the old directory
    have hold : ¬ Climbs s.parent oldParent x :=
      Climbs.not_above (fun y hy => some.inj (hy.symm.trans hs.rooted.root)) hxroot hxparent
        (hs.climbs_root (by rw [hxparent]; rfl))
    obtain ⟨s'', hattach⟩ := hs'.attach_isSome (p := p) (x := x) (d := oldParent)
      (by rw [(hnode oldParent).2.1]; exact hs.sorted.directory oldParent (List.ne_nil_of_mem hx))
      fun y hy => by
        obtain ⟨hy, hne⟩ := (hkids oldParent y).mp hy
        rw [(hnode y).1, (hnode x).1]
        exact hs.name_ne hy hx hne
    rw [hattach, getD_some]
    exact ⟨_, (hs'.attach hcut hsmall
      (hplace oldParent (hs.parent_inside hxparent) hold) hattach).1⟩
  · -- under the new name to the new directory
    rw [List.take_of_length_le hlength]
    have hnamed := hs'.setName hcut name
    have hkeep : ∀ z, ((s'.set x ({ · with name := name })).node z).kind = (s'.node z).kind := by
      intro z
      rw [node_set]
      split_ifs <;> rfl
    have hparent' : (s'.set x ({ · with name := name })).parent = s'.parent := by
      funext z
      rw [parent, node_set]
      split_ifs <;> rfl
    obtain ⟨s'', hattach⟩ := hnamed.attach_isSome (p := p) (x := x) (d := newParent)
      (by rw [hkeep, (hnode newParent).2.1]; exact hkind)
      fun y hy => by
        obtain ⟨hy, hne⟩ := (hkids newParent y).mp hy
        rw [node_set, node_set, if_neg hne, if_pos rfl, (hnode y).1]
        exact hnames y hy hne
    rw [hattach, getD_some]
    exact ⟨_, (hnamed.attach (by rw [hparent']; exact hcut) hsmall
      (by rw [hparent']; exact hplace newParent hinside hbelow) hattach).1⟩

/-- A node that is in the tree, and not the root, is not its own parent. -/
theorem Vfs.Shape.parent_ne (hs : s.Shape none kids) (hx : x ∈ kids d) : d ≠ x := by
  rintro rfl
  obtain ⟨hparent, hroot⟩ := hs.rooted.kids_parent hx
  have hclimb := hs.climbs_root (x := d) (by rw [hparent]; rfl)
  exact hroot (hclimb.eq_of_stuck fun y hy => some.inj (hy.symm.trans hparent)).symm

/-- An entry that has the new name goes, if it may. -/
theorem Vfs.Shape.displace {existing newParent : Nat} (hs : s.Shape none kids)
    (hexisting : existing ∈ kids newParent)
    (hdisplace : s.displace newParent existing x = some s') :
    s'.Shape none (dropKid kids newParent existing) ∧
      (∀ z, s'.parent z = if z = existing then none else s.parent z) ∧
      ∀ z, (s'.node z).name = (s.node z).name ∧ (s'.node z).kind = (s.node z).kind := by
  unfold Vfs.displace at hdisplace
  split_ifs at hdisplace with hreadonly hkinds hchildren
  have hempty : kids existing = [] := by
    by_contra hne
    have hfirst : (s.node existing).children.isSome := by
      rw [hs.listed.first]
      exact List.isSome_head?.mpr hne
    exact hchildren ⟨hs.sorted.directory existing hne, hfirst⟩
  obtain ⟨detached, hdetach, hshape, hparent, hnode⟩ := hs.discard hexisting hempty
  rw [hdetach, map_some] at hdisplace
  obtain rfl := some.inj hdisplace
  exact ⟨hshape, hparent, hnode⟩

/-- A rename whose new directory is not below the entry that moves. -/
def Vfs.Apart (s : Vfs) (p : Process) (memory : Memory) (oldPath newPath : Name) : Prop :=
  ∀ oldParent oldName newParent newName x,
    s.parentOf p memory 0 oldPath = some (oldParent, oldName) →
    s.parentOf p memory 1 newPath = some (newParent, newName) →
    s.findEntry oldParent oldName = some x → ¬ Climbs s.parent newParent x

/-- `vfs_rename` keeps the shape, unless it puts a directory below itself. -/
private theorem Vfs.Shape.rename {memory : Memory} {oldPath newPath : Name} (hs : s.Shape none kids)
    (hp : ∀ x, p.resolve x = none) (hmemory : memory.Indexes)
    (hapart : s.Apart p memory oldPath newPath) :
    ∃ kids, (s.rename p memory oldPath newPath).Shape none kids := by
  unfold Vfs.rename
  split
  · next oldParent oldName newParent newName hold hnew =>
    split
    · exact ⟨kids, hs⟩
    next hkinds =>
    obtain ⟨-, hkind⟩ := not_or.mp hkinds
    have hkind := not_not.mp hkind
    obtain ⟨hreached, hlength⟩ := hs.reached_parentOf hp hnew
    have hinside := hreached.inside hkind
    split
    · exact ⟨kids, hs⟩
    next x hentry =>
    have hbelow := hapart _ _ _ _ x hold hnew hentry
    obtain ⟨hx, hname⟩ := hs.mem_of_findEntry hentry
    split
    · exact ⟨kids, hs⟩
    dsimp only
    cases hexisting : (s.findEntry newParent newName).filter (· ≠ x) with
    | none =>
      -- nothing but the entry itself has the new name
      dsimp only
      split_ifs with hsame
      · exact ⟨kids, hs⟩
      refine hs.move hmemory hx hkind hinside hbelow (fun y hy hne heq => ?_) hlength
      rw [filter_eq_none_iff] at hexisting
      have hfound : ∃ z, s.findEntry newParent newName = some z := by
        rw [← ne_none_iff_exists']
        intro hnone
        exact (hs.findEntry_none hkind).mp hnone y hy heq
      obtain ⟨z, hz⟩ := hfound
      have hzx : z = x := by simpa using hexisting z hz
      obtain ⟨hxnew, hxname⟩ := hs.mem_of_findEntry (hzx ▸ hz)
      exact hs.name_ne hy hxnew hne (heq.trans hxname.symm)
    | some existing =>
      obtain ⟨hfind, hne⟩ := filter_eq_some_iff.mp hexisting
      have hne : existing ≠ x := by simpa using hne
      obtain ⟨hmem, hexistingName⟩ := hs.mem_of_findEntry hfind
      dsimp only
      cases hdisplace : s.displace newParent existing x with
      | none => exact ⟨kids, hs⟩
      | some s' =>
        obtain ⟨hs', hparent, hnode⟩ := hs.displace hmem hdisplace
        have hkids : ∀ d y, y ∈ dropKid kids newParent existing d ↔ y ∈ kids d ∧ y ≠ existing :=
          fun d y => hs.mem_dropKid hmem
        dsimp only
        split_ifs with hsame
        · exact ⟨_, hs'⟩
        refine hs'.move hmemory ((hkids _ _).mpr ⟨hx, hne.symm⟩) ?_ ?_ ?_ (fun y hy _ => ?_) hlength
        · rw [(hnode newParent).2]
          exact hkind
        · rw [hparent, if_neg (hs.parent_ne hmem)]
          exact hinside
        · intro hclimb
          refine hbelow (hclimb.mono fun a b hab => ?_)
          rw [hparent] at hab
          split_ifs at hab
          exact hab
        · obtain ⟨hy, hyne⟩ := (hkids _ _).mp hy
          rw [(hnode y).1, ← hexistingName]
          exact hs.name_ne hy hmem hyne
  · exact ⟨kids, hs⟩

end Rename

/-! ## Runs -/

/-- The calls that change the tree. `attach` stands for the callers of `vfs_attach`: a new node
    comes into the directory that a path leads to. -/
inductive VfsOp
  | createFile (path : Name) (length : Nat) (readonly : Bool)
  | createSymlink (path target : Name) (readonly : Bool)
  | createFileNode (path : Name)
  | createDirectory (path : Name)
  | createFifo (path : Name)
  | createDevice (path : Name) (kind : NodeKind)
  | createSocketNode (path : Name)
  | attach (path name : Name) (kind : NodeKind)
  | link (oldPath : Name) (followFinal : Bool) (newPath : Name)
  | remove (path : Name) (removeDirectory : Bool)
  | rename (oldPath newPath : Name)

/-- A call, by a process with its root directory, and what memory there is for it. -/
structure VfsCall where
  root : Nat
  memory : Memory
  op : VfsOp

/-- The process of a call; it sees no mounts. -/
def VfsCall.process (call : VfsCall) : Process := { root := call.root, resolve := fun _ => none }

/-- A new node in the directory that a path leads to. -/
def Vfs.attachNew (s : Vfs) (p : Process) (memory : Memory) (path name : Name) (kind : NodeKind) :
    Vfs :=
  match s.lookup p (fun followed => memory (.spare 0 followed)) path with
  | none => s
  | some parent =>
    if !memory .node then s
    else
      let made := s.allocNode (newNode name kind)
      (made.attach p (memory (.index 0)) parent s.nextNode).getD made

def Vfs.call (s : Vfs) (p : Process) (memory : Memory) : VfsOp → Vfs
  | .createFile path length readonly => (s.createFile p memory path length readonly).2
  | .createSymlink path target readonly => (s.createSymlink p memory path target readonly).2
  | .createFileNode path => (s.createFileNode p memory path).2
  | .createDirectory path => (s.createDirectory p memory path).2
  | .createFifo path => (s.createFifo p memory path).2
  | .createDevice path kind => (s.createDevice p memory path kind).2
  | .createSocketNode path => (s.createSocketNode p memory path).2
  | .attach path name kind => s.attachNew p memory path name kind
  | .link oldPath followFinal newPath =>
    let spare := fun followed => memory (.spare 1 followed)
    match if followFinal then s.lookup p spare oldPath else s.lookupNofollow p spare oldPath with
    | none => s
    | some target => s.link p memory target newPath
  | .remove path removeDirectory => s.remove p memory path removeDirectory
  | .rename oldPath newPath => s.rename p memory oldPath newPath

def Vfs.step (s : Vfs) (call : VfsCall) : Option Vfs :=
  some (s.call call.process call.memory call.op)

/-- Every node that has a parent is below the root, and once on the list of its parent. -/
structure Vfs.IsTree (s : Vfs) : Prop where
  climbs : ∀ x, (s.parent x).isSome → Climbs s.parent x vfsRoot
  listed : ∀ x d, s.parent x = some d → x ≠ vfsRoot → (s.childList d).count x = 1

/-- No rename puts an entry below itself, and there is memory for the indexes of directories. -/
def Vfs.Allowed (s : Vfs) (call : VfsCall) : Prop :=
  call.memory.Indexes ∧ ∀ oldPath newPath, call.op = .rename oldPath newPath →
    s.Apart call.process call.memory oldPath newPath

section Runs

variable {s : Vfs} {kids : Nat → List Nat} {p : Process} {memory : Memory}

private theorem Vfs.Shape.attachNew_shape {path name : Name} {kind : NodeKind}
    (hs : s.Shape none kids)
    (hp : ∀ x, p.resolve x = none) (hmemory : memory.Indexes) :
    ∃ kids, (s.attachNew p memory path name kind).Shape none kids := by
  unfold Vfs.attachNew
  split
  · exact ⟨kids, hs⟩
  next parent hlookup =>
  have hfresh := newNode_fresh s name kind
  split_ifs
  · exact ⟨kids, hs⟩
  rw [hmemory.index]
  dsimp only
  cases hattach : (s.allocNode (newNode name kind)).attach p true parent s.nextNode with
  | none => exact ⟨kids, hs.allocNode hfresh⟩
  | some attached =>
    -- only a directory takes a child
    have hreached := hs.reached_lookup hp hlookup
    have hkind : (s.node parent).kind = .directory := by
      rw [Vfs.attach] at hattach
      split_ifs at hattach with hkind
      rw [allocNode_node, if_neg (Nat.ne_of_lt hreached.small)] at hkind
      exact not_not.mp hkind
    exact (hs.attachNew hfresh (hreached.inside hkind) hattach).1

/-- Every call keeps the shape. -/
private theorem Vfs.Shape.call {op : VfsOp} (hs : s.Shape none kids) (hp : ∀ x, p.resolve x = none)
    (hmemory : memory.Indexes)
    (hapart : ∀ oldPath newPath, op = .rename oldPath newPath → s.Apart p memory oldPath newPath) :
    ∃ kids, (s.call p memory op).Shape none kids := by
  -- Five of the calls make one node in a directory that exists.
  have hnew path kind : ∃ kids, (s.createIn p memory path (newNode · kind)).2.Shape none kids :=
    (hs.grown_createIn hp hmemory fun name => newNode_fresh s name kind).1
  cases op with
  | createFile path length readonly =>
    have hfresh : ∀ s name, VfsNode.Fresh s { newNode name .file with readonly } := fun s name =>
      ⟨rfl, rfl, rfl, rfl, rfl, rfl, (newNode_fresh s name .file).link⟩
    exact (hs.grown_createBelow hp hmemory hfresh).1
  | createSymlink path target readonly =>
    have hfresh : ∀ s name,
        VfsNode.Fresh s { newNode name .symlink with readonly, data := some target } :=
          fun s name =>
      ⟨rfl, rfl, rfl, rfl, rfl, rfl, (newNode_fresh s name .symlink).link⟩
    rw [Vfs.call, Vfs.createSymlink]
    split_ifs
    · exact ⟨kids, hs⟩
    · exact (hs.grown_createBelow hp hmemory hfresh).1
  | createFileNode path => exact hnew _ _
  | createDirectory path => exact hnew _ _
  | createFifo path => exact hnew _ _
  | createDevice path kind =>
    rw [Vfs.call, Vfs.createDevice]
    split_ifs
    · exact ⟨kids, hs⟩
    · exact hnew _ _
  | createSocketNode path => exact hnew _ _
  | attach path name kind => exact hs.attachNew_shape hp hmemory
  | link oldPath followFinal newPath =>
    unfold Vfs.call
    dsimp only
    split
    · exact ⟨kids, hs⟩
    next target hlookup =>
    refine hs.link hp hmemory ?_
    split_ifs at hlookup
    · exact (hs.reached_lookup hp hlookup).small
    · exact (hs.reached_lookupInternal hp hlookup).small
  | remove path removeDirectory => exact hs.remove
  | rename oldPath newPath => exact hs.rename hp hmemory (hapart oldPath newPath rfl)

private theorem Vfs.Shape.isTree (hs : s.Shape none kids) : s.IsTree := by
  refine ⟨fun x => hs.climbs_root, fun x d hx hroot => ?_⟩
  rw [hs.listed.childList_eq fun y hy => hs.kids_small hy, (hs.listed.nodup d).count,
    if_pos ((hs.rooted.parent d x).mpr ⟨hx, hroot⟩)]

/-- The tree that there is at first: the root. -/
theorem vfsInit_shape : vfsInit.Shape none fun _ => [] := by
  -- There is the root, which is its own parent, and nothing else.
  have hnode : ∀ z, vfsInit.node z =
      if z = vfsRoot then { newNode ['/'] .directory with parent := some vfsRoot }
        else newNode [] .file :=
    fun z => by
      exact Function.update_apply (fun _ => newNode [] .file) vfsRoot _ z
  have hparent : ∀ z, vfsInit.parent z = if z = vfsRoot then some vfsRoot else none := fun z => by
    rw [parent, hnode]
    split_ifs <;> rfl
  refine ⟨⟨fun d => ?_, fun d => ?_, fun d => trivial, fun d => List.nodup_nil, fun d => ?_⟩,
    ⟨fun d x => ⟨fun h => (List.not_mem_nil h).elim, fun h => ?_⟩, ?_, fun x hx => .inl ?_,
      fun _ _ _ => rfl⟩,
    ⟨fun d => List.Pairwise.nil, fun d index hd => ?_⟩,
    ⟨?_, Nat.one_pos, fun d hd => absurd rfl hd, fun x target hx => ?_,
      fun x => ?_, fun x hx => ?_⟩⟩
  · rw [hnode]; split_ifs <;> rfl
  · rw [hnode]; split_ifs <;> rfl
  · rw [hnode]; split_ifs <;> rfl
  · rw [hparent, if_neg h.2] at h
    cases h.1
  · rw [hparent, if_pos rfl]
  · rw [hparent] at hx
    split_ifs at hx with hroot
    · exact hroot ▸ Climbs.refl _
    · cases hx
  · rw [hnode] at hd
    split_ifs at hd <;> cases hd
  · rfl
  · rw [hnode] at hx
    split_ifs at hx <;> cases hx
  · rw [hnode]; split_ifs <;> rfl
  · rw [hparent] at hx
    split_ifs at hx with hroot
    · exact hroot ▸ Nat.one_pos
    · cases hx

/-- Every run keeps the shape. -/
theorem Vfs.Shape.of_run {t : Vfs} {calls : List VfsCall} (hs : s.Shape none kids)
    (hallowed : Always Vfs.step Vfs.Allowed s calls) (hrun : run Vfs.step s calls = some t) :
    ∃ kids, t.Shape none kids := by
  have hkeep :
      ∀ (s : Vfs) (call : VfsCall) (t : Vfs), (∃ kids, s.Shape none kids) → s.Allowed call →
      s.step call = some t → ∃ kids, t.Shape none kids := by
    intro s call t hinv hcond hstep
    obtain ⟨kids, hs⟩ := hinv
    obtain rfl := Option.some.inj hstep
    exact hs.call (fun _ => rfl) hcond.1 hcond.2
  exact run_invariant hkeep ⟨kids, hs⟩ hallowed hrun

/-- After any calls under the condition the tree is a tree. -/
theorem Vfs.isTree_of_run {calls : List VfsCall} {s : Vfs}
    (hallowed : Always Vfs.step Vfs.Allowed vfsInit calls)
    (hrun : run Vfs.step vfsInit calls = some s) : s.IsTree := by
  obtain ⟨kids, hs⟩ := vfsInit_shape.of_run hallowed hrun
  exact hs.isTree

/-- A call by a process that has the root of the system, with all the memory that it needs. -/
def plainCall (op : VfsOp) : VfsCall := { root := vfsRoot, memory := fun _ => true, op }

/-- From a directory of the root one climbs to the root only. -/
theorem Vfs.not_climbs_below_root {s : Vfs} {d x : Nat} (hd : s.parent d = some vfsRoot)
    (hroot : s.parent vfsRoot = some vfsRoot) (hne : d ≠ x) (hx : vfsRoot ≠ x) :
    ¬ Climbs s.parent d x := by
  intro hclimb
  rcases Relation.ReflTransGen.cases_head hclimb with heq | ⟨d', hd', hclimb⟩
  · exact hne heq
  rw [hd] at hd'
  cases hd'
  exact hx (Climbs.eq_of_stuck
    (fun y hy => (Option.some.inj (hroot.symm.trans hy)).symm) hclimb).symm

/-- Two directories, and a file that moves from one to the other. -/
def moveCalls : List VfsCall :=
  [.createDirectory ['/', 'a'], .createDirectory ['/', 'b'], .createFileNode ['/', 'a', '/', 'f'],
    .rename ['/', 'a', '/', 'f'] ['/', 'b', '/', 'g']].map plainCall

/-- A directory is moved into another. -/
theorem moveCalls_isTree : Always Vfs.step Vfs.Allowed vfsInit moveCalls ∧
    ∃ s, run Vfs.step vfsInit moveCalls = some s ∧ s.IsTree := by
  have hindexes : ∀ op, (plainCall op).memory.Indexes := fun op => ⟨fun _ => rfl, fun _ => rfl⟩
  have hother : ∀ (s : Vfs) op, (∀ oldPath newPath, op ≠ .rename oldPath newPath) →
      s.Allowed (plainCall op) := fun s op hop => ⟨hindexes op, fun _ _ h => absurd h (hop _ _)⟩
  have hallowed : Always Vfs.step Vfs.Allowed vfsInit moveCalls := by
    refine ⟨hother _ _ nofun,
      fun t ht => ⟨hother _ _ nofun, fun u hu => ⟨hother _ _ nofun, fun v hv =>
      ⟨⟨hindexes _, ?_⟩, fun _ _ => trivial⟩⟩⟩⟩
    obtain rfl := Option.some.inj ht
    obtain rfl := Option.some.inj hu
    obtain rfl := Option.some.inj hv
    intro oldPath newPath hop oldParent oldName newParent newName x hold hnew hentry hclimb
    cases hop
    -- the file is node 3 in directory 1, and goes to directory 2, whose parent is the root
    rw [show Vfs.parentOf _ _ _ 0 ['/', 'a', '/', 'f'] = some (1, ['f']) by decide +kernel] at hold
    rw [show Vfs.parentOf _ _ _ 1 ['/', 'b', '/', 'g'] = some (2, ['g']) by decide +kernel] at hnew
    cases hold
    cases hnew
    rw [show Vfs.findEntry _ 1 ['f'] = some 3 by decide +kernel] at hentry
    cases hentry
    refine Vfs.not_climbs_below_root ?_ ?_ (by decide) (by decide) hclimb <;> decide +kernel
  exact ⟨hallowed, _, rfl, Vfs.isTree_of_run hallowed rfl⟩

/-- A directory that is to move into itself. -/
def cycleCalls : List VfsCall :=
  [.createDirectory ['/', 'a'], .rename ['/', 'a'] ['/', 'a', '/', 'b']].map plainCall

/-- The directory becomes its own parent: its parent pointers do not lead to the root. -/
theorem cycleCalls_not_isTree :
    ∃ s, run Vfs.step vfsInit cycleCalls = some s ∧ s.parent 1 = some 1 ∧ ¬ s.IsTree := by
  have hself : (run Vfs.step vfsInit cycleCalls).bind (fun s => s.parent 1) = some 1 := by
    decide +kernel
  obtain ⟨s, hrun, hparent⟩ := Option.bind_eq_some_iff.mp hself
  refine ⟨s, hrun, hparent, fun htree => ?_⟩
  have hclimb := htree.climbs 1 (by rw [hparent]; rfl)
  exact absurd (hclimb.eq_of_stuck fun y hy => Option.some.inj (hy.symm.trans hparent)) (by decide)

end Runs

end Tunix.Fs
