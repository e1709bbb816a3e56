import Tunix.ForStd.Run
import Tunix.Spec.VfsTree

/-!
# Calls on the name tree

A lookup comes to nodes of the tree, and each call that changes the tree detaches entries without
children, attaches new nodes or moves an entry. `vfs_rename` does not ask whether the new place is
below the entry that moves; as long as it is not (`Vfs.Apart`) and the indexes of the directories
can be allocated, the tree stays a tree (`Vfs.isTree_of_run`).
-/

namespace Tunix.Fs

open DoublyLinked ParentChain Steps Table Option

variable {current : Nat} {followFinal required : Bool} {memory : Memory} {path : Name}
    {node : Name → VfsNode}
  {change : VfsNode → VfsNode}

section Calls

variable {s s' : Vfs} {kids : Nat → List Nat} {p : Process} {x d : Nat} {name : Name}

/-! ## Lookup -/

namespace Vfs

/-- Where a lookup may be: a node that is there, and in the tree if it is a directory. -/
structure Reached (s : Vfs) (x : Nat) : Prop where
  small : x < s.nextNode
  inside : (s.node x).kind = .directory → (s.parent x).isSome

section

variable (hs : s.Shape none kids)

include hs

private theorem Shape.reached_root : s.Reached vfsRoot :=
  ⟨hs.sorted.rootSmall, fun _ => by rw [hs.rooted.root]; rfl⟩

private theorem Shape.reached_of_parent (hx : (s.parent x).isSome) : s.Reached x :=
  ⟨hs.sorted.small x hx, fun _ => hx⟩

private theorem Shape.crossMounts_eq (hp : ∀ x, p.resolve x = none) (depth x : Nat) :
    s.crossMounts p depth x = x := by
  cases depth with
  | zero => rfl
  | succ depth => rw [crossMounts, hp, hs.sorted.mounted]

private theorem Shape.reached_findChild (hp : ∀ x, p.resolve x = none)
    (hfind : s.findChild p d name = some x) : s.Reached x := by
  obtain ⟨entry, hentry, rfl⟩ := map_eq_some_iff.mp hfind
  rw [hs.crossMounts_eq hp]
  obtain ⟨hmem, -⟩ := hs.mem_of_findEntry hentry
  cases hlink : (s.node entry).linkTarget with
  | none =>
    refine hs.reached_of_parent ?_
    rw [getD_none, (hs.rooted.kids_parent hmem).1]
    rfl
  | some target =>
    -- a link is never to a directory
    obtain ⟨hsmall, hkind⟩ := hs.sorted.link entry target hlink
    exact ⟨hsmall, fun h => absurd h hkind⟩

/-- The parent of a node in the tree is in the tree. -/
theorem Shape.parent_inside (hx : s.parent x = some d) : (s.parent d).isSome := by
  by_cases hroot : x = vfsRoot
  · rw [hroot, hs.rooted.root] at hx
    rw [← some.inj hx, hs.rooted.root]
    rfl
  · have hmem : x ∈ kids d := (hs.rooted.parent d x).mpr ⟨hx, hroot⟩
    rw [isSome_iff_ne_none]
    intro hnone
    exact List.not_mem_nil (hs.rooted.childless d hnone (not_mem_none d) ▸ hmem)

private theorem Shape.reached_dotDot (hx : s.Reached x)
    (hkind : (s.node x).kind = .directory) : s.Reached (s.dotDot p x) := by
  unfold dotDot
  split_ifs
  · exact hx
  obtain ⟨d, hd⟩ := isSome_iff_exists.mp (hx.inside hkind)
  rw [← parent, hd]
  exact hs.reached_of_parent (hs.parent_inside hd)

end

/-- What a turn of a lookup can do at a node, with a path. -/
inductive Turn (s : Vfs) (p : Process) (current : Nat) (cursor : Name) : WalkStep → Prop
  | failed (error : LookupError) : Turn s p current cursor (.stop (.failed error))
  | skip (rest : Name) (required : Bool) (component : Name)
      (hnext : nextComponent cursor = some (component, rest)) :
      Turn s p current cursor (.go current rest required)
  | up (rest : Name) (required : Bool) (hnext : nextComponent cursor = some (['.', '.'], rest))
      (hkind : (s.node current).kind = .directory) :
      Turn s p current cursor (.go (s.dotDot p current) rest required)
  | down (rest : Name) (required : Bool) (component : Name) (next : Nat)
      (hnext : nextComponent cursor = some (component, rest))
      (hkind : (s.node current).kind = .directory)
      (hfind : s.findChild p current component = some next) :
      Turn s p current cursor (.go next rest required)
  | link (rest : Name) (required : Bool) (component target : Name) (next : Nat)
      (hnext : nextComponent cursor = some (component, rest))
      (hkind : (s.node current).kind = .directory)
      (hfind : s.findChild p current component = some next)
        (hdata : (s.node next).data = some target) :
      Turn s p current cursor (.stop (.link current target rest required))

/-- What a turn of the walk can do. -/
theorem walkStep_turn (s : Vfs) (p : Process) (followFinal : Bool) (current : Nat) (cursor : Name)
    (required : Bool) :
    s.Turn p current cursor (s.walkStep p followFinal current cursor required) := by
  unfold walkStep
  split
  · exact .failed _
  · next rest hnext => exact .skip rest _ [] hnext
  next component rest _ hnext =>
  split_ifs with hkind hdot hdots
  · exact .failed _
  · exact .skip rest _ component hnext
  · exact .up rest _ (hdots ▸ hnext) (not_not.mp hkind)
  unfold enter
  split
  · exact .failed _
  next next hfind =>
  dsimp only
  split_ifs
  · split
    · exact .failed _
    · exact .failed _
    · next target _ hdata =>
        exact .link rest _ component target next hnext (not_not.mp hkind) hfind hdata
  · exact .down rest _ component next hnext (not_not.mp hkind) hfind

section

variable (hs : s.Shape none kids) (hp : ∀ x, p.resolve x = none)

include hs hp

/-- A turn stays in the tree, or ends where it is. -/
theorem Shape.reached_turn {cursor rest : Name} (hcurrent : s.Reached current)
    (hturn : s.Turn p current cursor (.go x rest required)) : s.Reached x := by
  cases hturn with
  | skip => exact hcurrent
  | up _ _ _ hkind => exact hs.reached_dotDot hcurrent hkind
  | down _ _ _ _ _ _ hfind => exact hs.reached_findChild hp hfind

/-- The walk along a path stays in the tree. -/
theorem Shape.reached_walk {required' : Bool} {turns : Nat} {cursor : Name}
    (hcurrent : s.Reached current)
    (hwalk : s.walk p followFinal turns current cursor required = .node x required') :
    s.Reached x := by
  induction turns generalizing current cursor required with
  | zero =>
    cases cursor <;> exact (WalkEnd.node.inj hwalk).1 ▸ hcurrent
  | succ turns ih =>
    cases cursor with
    | nil => exact (WalkEnd.node.inj hwalk).1 ▸ hcurrent
    | cons c cursor =>
      rw [walk] at hwalk
      · have hturn := s.walkStep_turn p followFinal current (c :: cursor) required
        split at hwalk
        · next walkEnd hstep =>
          rw [hstep, hwalk] at hturn
          cases hturn
        · next hstep =>
          rw [hstep] at hturn
          exact ih (hs.reached_turn hp hcurrent hturn) hwalk
      · exact List.cons_ne_nil c cursor

variable {memory : Nat → Bool}

private theorem Shape.reached_follow {links : Nat}
    (hfollow : s.follow p memory followFinal links path required = .ok x) : s.Reached x := by
  induction links using Nat.strongRecOn generalizing path required with
  | _ links ih =>
    rw [follow] at hfollow
    split at hfollow
    · cases hfollow
    · next y required' hwalk =>
      split_ifs at hfollow
      obtain rfl := Except.ok.inj hfollow
      rw [hs.crossMounts_eq hp] at hwalk
      exact hs.reached_walk hp hs.reached_root hwalk
    · cases links with
      | zero => cases hfollow
      | succ links =>
        dsimp only at hfollow
        split_ifs at hfollow
        split at hfollow
        · cases hfollow
        · exact ih links (Nat.lt_succ_self links) hfollow

/-- A lookup finds a node of the tree. -/
theorem Shape.reached_lookupInternal
    (hlookup : (s.lookupInternal p memory path followFinal).toOption = some x) : s.Reached x := by
  unfold lookupInternal at hlookup
  split_ifs at hlookup
  · cases hlookup
  cases hfollow : s.follow p memory followFinal vfsSymlinkMaxDepth path false with
  | error e =>
    rw [hfollow] at hlookup
    cases hlookup
  | ok y =>
    rw [hfollow] at hlookup
    obtain rfl := some.inj hlookup
    exact hs.reached_follow hp hfollow

/-- A lookup finds a node of the tree. -/
theorem Shape.reached_lookup (hlookup : s.lookup p memory path = some x) : s.Reached x :=
  hs.reached_lookupInternal hp hlookup

end

end Vfs

private theorem splitParent_length {directory : Name}
    (h : splitParent path = some (directory, name)) :
    name.length ≤ vfsNameMax := by
  unfold splitParent at h
  dsimp only at h
  split_ifs at h with h1 h2 h3 h4
  all_goals
    obtain ⟨-, rfl⟩ := Prod.mk.inj (some.inj h)
    omega

/-- The directory for a new entry is in the tree, and the name is not too long. -/
theorem Vfs.Shape.reached_parentOf {n : Nat} (hs : s.Shape none kids)
    (hp : ∀ x, p.resolve x = none) (hparent : s.parentOf p memory n path = some (d, name)) :
    s.Reached d ∧ name.length ≤ vfsNameMax := by
  unfold Vfs.parentOf at hparent
  split_ifs at hparent
  simp only [bind_eq_bind, bind_eq_some_iff] at hparent
  obtain ⟨⟨parentPath, name'⟩, hsplit, parent, hlookup, hresult⟩ := hparent
  obtain ⟨rfl, rfl⟩ := Prod.mk.inj (some.inj hresult)
  exact ⟨hs.reached_lookup hp hlookup, splitParent_length hsplit⟩

/-! ## New nodes -/

/-- A node that is nowhere yet. -/
structure VfsNode.Fresh (s : Vfs) (node : VfsNode) : Prop where
  parent : node.parent = none
  children : node.children = none
  lastChild : node.lastChild = none
  childCount : node.childCount = 0
  childIndex : node.childIndex = none
  mounted : node.mounted = none
  link : ∀ target, node.linkTarget = some target → target < s.nextNode ∧
    (s.node target).kind ≠ .directory

/-- A new node is linked to nothing. -/
theorem newNode_fresh (s : Vfs) (name : Name) (kind : NodeKind) : (newNode name kind).Fresh s :=
  ⟨rfl, rfl, rfl, rfl, rfl, rfl, fun _ h => by cases h⟩

namespace Vfs

/-- The nodes with a new one. -/
theorem allocNode_node (s : Vfs) (node : VfsNode) (z : Nat) :
    (s.allocNode node).node z = if z = s.nextNode then node else s.node z :=
  Function.update_apply ..

section

variable (hs : s.Shape none kids)

include hs

private theorem Shape.nextNode_parent : s.parent s.nextNode = none := by
  by_contra hne
  exact Nat.lt_irrefl _ (hs.sorted.small _ (isSome_iff_ne_none.mpr hne))

private theorem allocNode_parent {node : VfsNode} (hfresh : node.Fresh s) :
    (s.allocNode node).parent = s.parent := by
  funext z
  rw [parent, allocNode_node]
  split_ifs with hz
  · rw [hfresh.parent, hz, hs.nextNode_parent]
  · rfl

/-- A new node is not in the tree yet. -/
theorem Shape.allocNode {node : VfsNode} (hfresh : node.Fresh s) :
    (s.allocNode node).Shape none kids := by
  -- The new address has no children yet.
  have hempty : kids s.nextNode = [] :=
    hs.rooted.childless _ hs.nextNode_parent (not_mem_none _)
  have hold : ∀ d, ∀ z ∈ kids d, (s.allocNode node).node z = s.node z := fun d z hz => by
    rw [allocNode_node, if_neg (Nat.ne_of_lt (hs.kids_small hz))]
  refine ⟨⟨fun d => ?_, fun d => ?_, fun d => ?_, hs.listed.nodup, fun d => ?_⟩,
    hs.rooted.congr (allocNode_parent hs hfresh), ⟨fun d => ?_, fun d index hd => ?_⟩,
    ⟨?_, Nat.lt_succ_of_lt hs.sorted.rootSmall, fun d hd => ?_, fun z target hz => ?_, fun z => ?_,
      fun z hz => ?_⟩⟩
  · rw [allocNode_node]
    split_ifs with hd
    · rw [hfresh.children, hd, hempty]
      rfl
    · exact hs.listed.first d
  · rw [allocNode_node]
    split_ifs with hd
    · rw [hfresh.lastChild, hd, hempty]
      rfl
    · exact hs.listed.last d
  · refine (hs.listed.linked d).congr (fun z hz => ?_) fun z hz => ?_
    · rw [next, hold d z hz, next]
    · rw [prev, hold d z hz, prev]
  · rw [allocNode_node]
    split_ifs with hd
    · rw [hfresh.childCount, hd, hempty]
      rfl
    · exact hs.listed.count d
  · exact (hs.named.names d).imp_of_mem fun {x y} hx hy hxy => by rwa [hold d x hx, hold d y hy]
  · rw [allocNode_node] at hd
    split_ifs at hd
    · rw [hfresh.childIndex] at hd
      cases hd
    · exact (hs.named.index d index hd).congr fun z hz => by rw [hold d z hz]
  · rw [allocNode_node, if_neg (Nat.ne_of_lt hs.sorted.rootSmall)]
    exact hs.sorted.rootKind
  · have hne : d ≠ s.nextNode := fun heq => hd (heq ▸ hempty)
    rw [allocNode_node, if_neg hne]
    exact hs.sorted.directory d hd
  · -- a link is to a node that was there before
    have htarget : target < s.nextNode ∧ (s.node target).kind ≠ .directory := by
      rw [allocNode_node] at hz
      split_ifs at hz
      · exact hfresh.link target hz
      · exact hs.sorted.link z target hz
    rw [allocNode_node, if_neg (Nat.ne_of_lt htarget.1)]
    exact ⟨Nat.lt_succ_of_lt htarget.1, htarget.2⟩
  · rw [allocNode_node]
    split_ifs
    · exact hfresh.mounted
    · exact hs.sorted.mounted z
  · rw [allocNode_parent hs hfresh] at hz
    exact Nat.lt_succ_of_lt (hs.sorted.small z hz)

/-- From a node with a parent one comes to the root. -/
theorem Shape.climbs_root (hx : (s.parent x).isSome) : Climbs s.parent x vfsRoot :=
  (hs.rooted.climbs x hx).resolve_right fun ⟨t, ht, _⟩ => not_mem_none t ht

/-- A new node comes into a directory of the tree. -/
theorem Shape.attachNew {node : VfsNode} (hfresh : node.Fresh s) (hd : (s.parent d).isSome)
    (hattach : (s.allocNode node).attach p true d s.nextNode = some s') :
    (∃ kids, s'.Shape none kids) ∧ (s'.parent s.nextNode).isSome := by
  have hparent := allocNode_parent hs hfresh
  obtain ⟨hshape, hinside⟩ := ((hs.allocNode hfresh).cutAt s.nextNode).attach
    (by rw [hparent, hs.nextNode_parent]) (Nat.lt_succ_self _)
    (by rw [hparent]; exact hs.climbs_root hd) hattach
  exact ⟨⟨_, hshape⟩, by rw [hinside]; rfl⟩

end

end Vfs

/-! ## Calls that make nodes -/

/-- The indexes of directories can be allocated. -/
structure Memory.Indexes (memory : Memory) : Prop where
  index : ∀ n, memory (.index n) = true
  directoryIndex : ∀ n, memory (.directoryIndex n) = true

namespace Vfs

/-- The tree is a tree, and the node, if there is one, is in it. -/
def Grown (result : Option Nat × Vfs) : Prop :=
  (∃ kids, result.2.Shape none kids) ∧ ∀ x ∈ result.1, (result.2.parent x).isSome

section

variable (hs : s.Shape none kids)

include hs

/-- A call that makes nothing. -/
theorem Shape.grown_none : Grown (none, s) := ⟨⟨kids, hs⟩, fun x hx => (not_mem_none x hx).elim⟩

private theorem Shape.grown_some (hx : (s.parent x).isSome) : Grown (some x, s) :=
  ⟨⟨kids, hs⟩, fun y hy => by obtain rfl := some.inj hy; exact hx⟩

/-- A new node that is attached, or not. -/
theorem Shape.grown_attach {node : VfsNode} (hfresh : node.Fresh s) (hd : (s.parent d).isSome) :
    Grown (match (s.allocNode node).attach p true d s.nextNode with
      | none => (none, s.allocNode node)
      | some attached => (some s.nextNode, attached)) := by
  split
  · exact (hs.allocNode hfresh).grown_none
  next attached hattach =>
  obtain ⟨⟨kids, hs'⟩, hinside⟩ := hs.attachNew hfresh hd hattach
  exact hs'.grown_some hinside

section

variable (hp : ∀ x, p.resolve x = none) (hmemory : memory.Indexes)
    (hcurrent : (s.parent current).isSome)
include hp hmemory hcurrent

private theorem Shape.grown_mkdirStep {n : Nat} {component : Name} :
    Grown (s.mkdirStep p memory n current component) := by
  unfold mkdirStep
  split
  · -- the directory is missing
    split
    · exact hs.grown_none
    · rw [hmemory.directoryIndex]
      exact hs.grown_attach (newNode_fresh s component .directory) hcurrent
  · next next hfind =>
    refine ⟨⟨kids, hs⟩, fun x hx => ?_⟩
    obtain ⟨hfound, hkind⟩ := filter_eq_some_iff.mp hx
    have hreached : s.Reached x := by
      unfold mkdirFound at hfound
      split_ifs at hfound
      · obtain ⟨path, -, hlookup⟩ := bind_eq_some_iff.mp hfound
        exact hs.reached_lookup hp hlookup
      · exact some.inj hfound ▸ hs.reached_findChild hp hfind
    exact hreached.inside (by simpa using hkind)

private theorem Shape.grown_mkdirLoop {turns n : Nat} {cursor : Name} :
    Grown (mkdirLoop p memory turns n s current cursor) := by
  induction turns generalizing n s kids current cursor with
  | zero => cases cursor <;> exact hs.grown_some hcurrent
  | succ turns ih =>
    cases cursor with
    | nil => exact hs.grown_some hcurrent
    | cons c cursor =>
      rw [mkdirLoop]
      · split
        · exact hs.grown_none
        split_ifs
        · exact hs.grown_some hcurrent
        · exact ih hs hcurrent
        next component _ _ _ _ =>
        -- Each turn enters a directory that is there or that it has made.
        have hgrown : Grown (s.mkdirStep p memory n current component) :=
          hs.grown_mkdirStep hp hmemory hcurrent
        split
        · next hstep => exact hstep ▸ hgrown
        next hstep =>
        rw [hstep] at hgrown
        obtain ⟨⟨kids, hs'⟩, hinside⟩ := hgrown
        exact ih hs' (hinside _ rfl)
      · exact List.cons_ne_nil c cursor

end

private theorem Shape.grown_createAt {data : Bool} (hmemory : memory.Indexes)
    (hfresh : (node name).Fresh s)
    (hd : (s.parent d).isSome) : Grown (s.createAt p memory d name node data) := by
  unfold createAt
  split_ifs
  · exact hs.grown_none
  · exact hs.grown_none
  · exact (hs.allocNode hfresh).grown_none
  · rw [hmemory.index]
    exact hs.grown_attach hfresh hd

/-- An entry is made in a directory that exists. -/
theorem Shape.grown_createIn (hp : ∀ x, p.resolve x = none) (hmemory : memory.Indexes)
    (hfresh : ∀ name, (node name).Fresh s) : Grown (s.createIn p memory path node) := by
  unfold createIn
  split
  · exact hs.grown_none
  next parent name hparent =>
  split_ifs with hkind
  · exact hs.grown_none
  · exact hs.grown_createAt hmemory (hfresh name)
      ((hs.reached_parentOf hp hparent).1.inside (not_not.mp hkind))

/-- An entry is made, with the directories above it. -/
theorem Shape.grown_createBelow {data : Bool} (hp : ∀ x, p.resolve x = none)
    (hmemory : memory.Indexes)
    (hfresh : ∀ s name, (node name).Fresh s) : Grown (s.createBelow p memory path node data) := by
  -- The directories above are made first, and stay if the rest fails.
  have hparent : Grown ((s.parentOfCreate p memory path).map (Option.map Prod.fst) id) := by
    unfold parentOfCreate
    split_ifs
    · exact hs.grown_none
    split
    · exact hs.grown_none
    next parentPath name _ =>
    have hroot : (s.parent vfsRoot).isSome := by rw [hs.rooted.root]; rfl
    have hmade : Grown (s.mkdirP p memory parentPath) := by
      unfold mkdirP
      split_ifs
      · exact hs.grown_none
      · exact hs.grown_mkdirLoop hp hmemory hroot
    refine ⟨hmade.1, fun x hx => hmade.2 x ?_⟩
    simpa using hx
  unfold createBelow
  split
  · next hmade =>
    rw [hmade] at hparent
    exact hparent
  · next parent name s' hmade =>
    rw [hmade] at hparent
    obtain ⟨⟨kids, hs'⟩, hinside⟩ := hparent
    exact hs'.grown_createAt hmemory (hfresh s' name) (hinside parent rfl)

end

end Vfs

/-! ## Links and removals -/

/-- A change that the tree does not look at: of the counts of references, and of a link that
    goes. -/
def VfsNode.Aside (change : VfsNode → VfsNode) : Prop :=
  ∀ b, ∃ linkTarget links refs orphaned, change b = { b with linkTarget, links, refs, orphaned } ∧
    (linkTarget = b.linkTarget ∨ linkTarget = none)

namespace Vfs

private theorem field_setAside {β : Type} (hchange : VfsNode.Aside change) (s : Vfs) (x : Nat)
    (field : VfsNode → β)
    (hfield : ∀ b linkTarget links refs orphaned,
      field { b with linkTarget, links, refs, orphaned } = field b) (z : Nat) :
    field ((s.set x change).node z) = field (s.node z) := by
  refine field_modify s.node field (fun b => ?_) x z
  obtain ⟨linkTarget, links, refs, orphaned, heq, -⟩ := hchange b
  rw [heq, hfield]

private theorem Shape.setOther {top : Option Nat} (hs : s.Shape top kids)
    (x : Nat) (hchange : VfsNode.Aside change) : (s.set x change).Shape top kids := by
  refine hs.congr (field_setAside hchange s x VfsNode.frame fun _ _ _ _ _ => rfl)
    (fun _ z _ => field_setAside hchange s x VfsNode.name (fun _ _ _ _ _ => rfl) z)
      (fun z target hz => ?_) rfl
  rw [node_set] at hz
  split_ifs at hz
  · obtain ⟨linkTarget, links, refs, orphaned, heq, hor⟩ := hchange (s.node z)
    rw [heq] at hz
    rcases hor with hsame | hnone
    · exact hsame ▸ hz
    · rw [hnone] at hz
      cases hz
  · exact hz

/-- The parents, names and kinds are the same. -/
def Kept (s s' : Vfs) : Prop := s'.parent = s.parent ∧ s'.nextNode = s.nextNode ∧
    ∀ z, (s'.node z).name = (s.node z).name ∧ (s'.node z).kind = (s.node z).kind

private theorem Kept.trans {s'' : Vfs} (h : s.Kept s') (h' : s'.Kept s'') : s.Kept s'' :=
  ⟨h'.1.trans h.1, h'.2.1.trans h.2.1,
    fun z => ⟨(h'.2.2 z).1.trans (h.2.2 z).1, (h'.2.2 z).2.trans (h.2.2 z).2⟩⟩

private theorem kept_setOther (hchange : VfsNode.Aside change) (s : Vfs) (x : Nat) :
    s.Kept (s.set x change) :=
  have hkeep {β : Type} := field_setAside (β := β) hchange s x
  ⟨funext (hkeep VfsNode.parent fun _ _ _ _ _ => rfl), rfl,
    fun z => ⟨hkeep VfsNode.name (fun _ _ _ _ _ => rfl) z,
      hkeep VfsNode.kind (fun _ _ _ _ _ => rfl) z⟩⟩

/-- `vfs_link` keeps the shape. -/
theorem Shape.link {target : Nat} (hs : s.Shape none kids)
    (hp : ∀ x, p.resolve x = none) (hmemory : memory.Indexes) (htarget : target < s.nextNode) :
    ∃ kids, (s.link p memory target path).Shape none kids := by
  have hbody : (s.node target).linkTarget.getD target < s.nextNode := by
    cases hlink : (s.node target).linkTarget with
    | none => exact htarget
    | some body => exact (hs.sorted.link target body hlink).1
  unfold Vfs.link
  dsimp only
  generalize (s.node target).linkTarget.getD target = body at hbody
  split
  · exact ⟨kids, hs⟩
  split
  · exact ⟨kids, hs⟩
  next parent name hparent =>
  split_ifs with hkind
  · exact ⟨kids, hs⟩
  · exact ⟨kids, hs⟩
  -- the entry is a new node, and the body gets a reference
  have hinside := (hs.reached_parentOf hp hparent).1.inside (not_not.mp hkind)
  have hbody' : (s.node body).linkTarget.getD body < s.nextNode := by
    cases hlink : (s.node body).linkTarget with
    | none => exact hbody
    | some inner => exact (hs.sorted.link body inner hlink).1
  unfold attachLink
  dsimp only
  generalize (s.node body).linkTarget.getD body = inner at hbody'
  split_ifs with hdirectory
  · exact ⟨kids, hs⟩
  · exact ⟨kids, hs⟩
  have hfresh : VfsNode.Fresh s
      { newNode name (s.node inner).kind with linkTarget := some inner } :=
    ⟨rfl, rfl, rfl, rfl, rfl, rfl, fun t ht => some.inj ht ▸ ⟨hbody', hdirectory⟩⟩
  rw [hmemory.index]
  split
  · exact ⟨kids, hs.allocNode hfresh⟩
  next attached hattach =>
  obtain ⟨⟨kids, hs'⟩, -⟩ := hs.attachNew hfresh hinside hattach
  refine ⟨kids, (hs'.setOther inner fun b => ?_).setOther inner fun b => ?_⟩
  · exact ⟨b.linkTarget, b.links + 1, b.refs, b.orphaned, rfl, .inl rfl⟩
  · exact ⟨b.linkTarget, b.links, b.refs + 1, b.orphaned, rfl, .inl rfl⟩

private theorem Shape.destroyNode {top : Option Nat} (hs : s.Shape top kids) (x : Nat) :
    (s.destroyNode x).Shape top kids ∧ s.Kept (s.destroyNode x) := by
  unfold Vfs.destroyNode
  split
  · -- an entry for another body: the body loses a name and a reference
    next target _ =>
    have hunlink : VfsNode.Aside ({ · with linkTarget := none }) :=
      fun b => ⟨none, b.links, b.refs, b.orphaned, rfl, .inr rfl⟩
    have hname : VfsNode.Aside fun d => { d with links := d.links - 1 } :=
      fun b => ⟨b.linkTarget, b.links - 1, b.refs, b.orphaned, rfl, .inl rfl⟩
    have href : VfsNode.Aside fun d => { d with refs := d.refs - 1 } :=
      fun b => ⟨b.linkTarget, b.links, b.refs - 1, b.orphaned, rfl, .inl rfl⟩
    exact ⟨((hs.setOther x hunlink).setOther target hname).setOther target href,
      ((kept_setOther hunlink s x).trans (kept_setOther hname _ target)).trans
        (kept_setOther href _ target)⟩
  · have hname : VfsNode.Aside fun d =>
        { d with links := d.links - 1, orphaned := d.orphaned || d.refs ≠ 0 } :=
      fun b => ⟨b.linkTarget, b.links - 1, b.refs, b.orphaned || b.refs ≠ 0, rfl, .inl rfl⟩
    exact ⟨hs.setOther x hname, kept_setOther hname s x⟩

/-- An entry without children goes. -/
theorem Shape.discard (hs : s.Shape none kids) (hx : x ∈ kids d) (hempty : kids x = []) :
    ∃ s', s.detachChild d x = some s' ∧ (s'.destroyNode x).Shape none (dropKid kids d x) ∧
      (∀ z, (s'.destroyNode x).parent z = if z = x then none else s.parent z) ∧
      ∀ z, ((s'.destroyNode x).node z).name = (s.node z).name ∧
        ((s'.destroyNode x).node z).kind = (s.node z).kind := by
  obtain ⟨s', hdetach, hs', -, hparent, hnode⟩ := hs.detach hx
  obtain ⟨hdestroyed, hparent', -, hnode'⟩ := hs'.destroyNode x
  refine ⟨s', hdetach, hdestroyed.forget ?_ ?_, fun z => ?_, fun z => ?_⟩
  · rw [hparent', hparent, if_pos rfl]
  · rw [dropKid_apply]
    split_ifs with heq
    · rw [← heq, hempty]
      rfl
    · exact hempty
  · rw [hparent', hparent]
  · exact ⟨(hnode' z).1.trans (hnode z).1, (hnode' z).2.trans (hnode z).2.1⟩

/-- Removing an entry keeps the shape. -/
theorem Shape.remove {removeDirectory : Bool}
    (hs : s.Shape none kids) :
    ∃ kids, (s.remove p memory path removeDirectory).Shape none kids := by
  unfold Vfs.remove
  split
  · exact ⟨kids, hs⟩
  next parent name hparent =>
  split
  · exact ⟨kids, hs⟩
  next x hentry =>
  split_ifs with hreadonly hkind
  · exact ⟨kids, hs⟩
  · exact ⟨kids, hs⟩
  have hempty : kids x = [] := by
    by_contra hne
    have hdirectory := hs.sorted.directory x hne
    have hfirst : (s.node x).children.isSome := by
      rw [hs.listed.first]
      exact List.isSome_head?.mpr hne
    cases removeDirectory <;> simp [hdirectory, hfirst] at hkind
  obtain ⟨s', hdetach, hs', -⟩ := hs.discard (hs.mem_of_findEntry hentry).1 hempty
  rw [hdetach]
  exact ⟨_, hs'⟩

end Vfs

end Calls

end Tunix.Fs
