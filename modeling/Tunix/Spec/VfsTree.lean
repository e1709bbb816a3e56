import Mathlib.Data.List.Perm.Subperm
import Tunix.ForStd.DoublyLinked
import Tunix.ForStd.ParentChain
import Tunix.Kernel.Vfs

/-!
# The name tree is a tree

Each directory has the list of its children, in both directions and by the hash index, and the
parent pointers of the nodes in the tree lead to the root. `Vfs.Shape` says so of a tree that may
have one subtree cut off (`top`); cutting an entry off and attaching it elsewhere are the two steps
that all calls are made of (`Shape.detach`, `Shape.attach`). Attaching needs a place that is not
inside the subtree.
-/

namespace Tunix.Fs

open DoublyLinked ParentChain Table List Option

variable {index : ChildIndex} {xs : List Nat}

section Fields

variable (s : Vfs)

def Vfs.parent (x : Nat) : Option Nat := (s.node x).parent
def Vfs.next (x : Nat) : Option Nat := (s.node x).next
def Vfs.prev (x : Nat) : Option Nat := (s.node x).prev

end Fields

/-! ## Shapes -/

/-- The children of a directory are these, in this order. -/
structure Vfs.Listed (kids : Nat → List Nat) (s : Vfs) : Prop where
  first : ∀ d, (s.node d).children = (kids d).head?
  last : ∀ d, (s.node d).lastChild = (kids d).getLast?
  linked : ∀ d, Linked s.next s.prev none (kids d) none
  nodup : ∀ d, (kids d).Nodup
  count : ∀ d, (s.node d).childCount = (kids d).length

/-- The parent pointers fit the lists, and lead to the root or to the top of what is cut off. -/
structure Vfs.Rooted (top : Option Nat) (kids : Nat → List Nat) (s : Vfs) : Prop where
  parent : ∀ d x, x ∈ kids d ↔ s.parent x = some d ∧ x ≠ vfsRoot
  root : s.parent vfsRoot = some vfsRoot
  climbs : ∀ x, (s.parent x).isSome → Climbs s.parent x vfsRoot ∨ ∃ t ∈ top, Climbs s.parent x t
  childless : ∀ d, s.parent d = none → d ∉ top → kids d = []

/-- The index has these children, each in the bucket of its name. -/
structure ChildIndex.Holds (index : ChildIndex) (s : Vfs) (xs : List Nat) : Prop where
  mem : ∀ b x, x ∈ index.slot b ↔ x ∈ xs ∧ index.bucketOf (s.node x).name = b
  nodup : ∀ b, (index.slot b).Nodup
  wide : 64 ≤ index.buckets

/-- No two children have one name, and the index of a directory has all its children. -/
structure Vfs.Named (kids : Nat → List Nat) (s : Vfs) : Prop where
  names : ∀ d, (kids d).Pairwise fun x y => (s.node x).name ≠ (s.node y).name
  index : ∀ d index, (s.node d).childIndex = some index → index.Holds s (kids d)

/-- Only directories have children, links are to other nodes, and nothing is mounted. -/
structure Vfs.Sorted (kids : Nat → List Nat) (s : Vfs) : Prop where
  rootKind : (s.node vfsRoot).kind = .directory
  rootSmall : vfsRoot < s.nextNode
  directory : ∀ d, kids d ≠ [] → (s.node d).kind = .directory
  link : ∀ x target, (s.node x).linkTarget = some target → target < s.nextNode ∧
    (s.node target).kind ≠ .directory
  mounted : ∀ x, (s.node x).mounted = none
  small : ∀ x, (s.parent x).isSome → x < s.nextNode

/-- A node apart from its name and its links. -/
def VfsNode.frame (b : VfsNode) :=
  (b.parent, b.children, b.lastChild, b.next, b.prev, b.childCount, b.childIndex, b.kind, b.mounted)

structure Vfs.Shape (top : Option Nat) (kids : Nat → List Nat) (s : Vfs) : Prop where
  listed : s.Listed kids
  rooted : s.Rooted top kids
  named : s.Named kids
  sorted : s.Sorted kids

section Shape

variable {s s' : Vfs} {top : Option Nat} {kids : Nat → List Nat} {d x : Nat} {name : Name}

namespace Vfs

/-- The node that was changed, and the others. -/
theorem node_set (s : Vfs) (x : Nat) (change : VfsNode → VfsNode) (y : Nat) :
    (s.set x change).node y = if y = x then change (s.node y) else s.node y :=
  modify_apply ..

private theorem node_setAt (s : Vfs) (x : Option Nat) (change : VfsNode → VfsNode) (y : Nat) :
    (s.setAt x change).node y = if x = some y then change (s.node y) else s.node y :=
  modifyAt_apply ..

/-- A child names its directory. -/
theorem Rooted.kids_parent (hr : s.Rooted top kids) (hx : x ∈ kids d) :
    s.parent x = some d ∧ x ≠ vfsRoot :=
  (hr.parent d x).mp hx

/-- A child has been allocated. -/
theorem Shape.kids_small (hs : s.Shape top kids) (hx : x ∈ kids d) : x < s.nextNode :=
  hs.sorted.small x (by rw [(hs.rooted.kids_parent hx).1]; rfl)

/-! What each part looks at. -/

private theorem Listed.congr (hl : s.Listed kids)
    (hsame : ∀ z, (s'.node z).children = (s.node z).children ∧
      (s'.node z).lastChild = (s.node z).lastChild ∧ s'.next z = s.next z ∧ s'.prev z = s.prev z ∧
      (s'.node z).childCount = (s.node z).childCount) : s'.Listed kids where
  first := fun d => (hsame d).1.trans (hl.first d)
  last := fun d => (hsame d).2.1.trans (hl.last d)
  linked := fun d => (hl.linked d).congr (fun z _ => (hsame z).2.2.1) fun z _ => (hsame z).2.2.2.1
  nodup := hl.nodup
  count := fun d => (hsame d).2.2.2.2.trans (hl.count d)

/-- Only the parents matter. -/
theorem Rooted.congr (hr : s.Rooted top kids) (hsame : s'.parent = s.parent) :
    s'.Rooted top kids := by
  refine ⟨?_, ?_, ?_, ?_⟩ <;> rw [hsame]
  · exact hr.parent
  · exact hr.root
  · exact hr.climbs
  · exact hr.childless

end Vfs

/-- Only the names matter. -/
theorem ChildIndex.Holds.congr (hi : index.Holds s xs)
    (hsame : ∀ z ∈ xs, (s'.node z).name = (s.node z).name) : index.Holds s' xs := by
  refine ⟨fun b x => ?_, hi.nodup, hi.wide⟩
  rw [hi.mem]
  refine and_congr_right fun hx => ?_
  rw [hsame x hx]

namespace Vfs

private theorem Named.congr (hn : s.Named kids)
    (hnames : ∀ d, ∀ z ∈ kids d, (s'.node z).name = (s.node z).name)
    (hindex : ∀ z, (s'.node z).childIndex = (s.node z).childIndex) : s'.Named kids := by
  refine ⟨fun d => (hn.names d).imp_of_mem fun {x y} hx hy hxy => ?_, fun d index hd => ?_⟩
  · rw [hnames d x hx, hnames d y hy]
    exact hxy
  · rw [hindex] at hd
    exact (hn.index d index hd).congr (hnames d)

private theorem Sorted.relink {kids' : Nat → List Nat} (hk : s.Sorted kids)
    (hsame : ∀ z, (s'.node z).kind = (s.node z).kind ∧ (s'.node z).mounted = (s.node z).mounted)
    (hlink : ∀ z target, (s'.node z).linkTarget = some target → (s.node z).linkTarget = some target)
    (hnext : s'.nextNode = s.nextNode)
    (hdirectory : ∀ d, kids' d ≠ [] → kids d ≠ [] ∨ (s.node d).kind = .directory)
    (hsmall : ∀ z, (s'.parent z).isSome → (s.parent z).isSome ∨ z < s.nextNode) :
    s'.Sorted kids' where
  rootKind := (hsame vfsRoot).1.trans hk.rootKind
  rootSmall := hnext ▸ hk.rootSmall
  directory := fun d hd => (hsame d).1.trans ((hdirectory d hd).elim (hk.directory d) id)
  link := fun x target hx => by
    rw [hnext, (hsame target).1]
    exact hk.link x target (hlink x target hx)
  mounted := fun x => (hsame x).2.trans (hk.mounted x)
  small := fun x hx => by
    rw [hnext]
    exact (hsmall x hx).elim (hk.small x) id

private theorem Sorted.congr (hk : s.Sorted kids) (hsame : ∀ z, (s'.node z).kind = (s.node z).kind ∧
      (s'.node z).mounted = (s.node z).mounted ∧ s'.parent z = s.parent z)
    (hlink : ∀ z target, (s'.node z).linkTarget = some target → (s.node z).linkTarget = some target)
    (hnext : s'.nextNode = s.nextNode) : s'.Sorted kids :=
  hk.relink (fun z => ⟨(hsame z).1, (hsame z).2.1⟩) hlink hnext (fun _ => .inl) fun z hz =>
    .inl ((hsame z).2.2 ▸ hz)

/-- The fields that the shape does not read may change. -/
theorem Shape.congr (hs : s.Shape top kids) (hframe : ∀ z, (s'.node z).frame = (s.node z).frame)
    (hnames : ∀ d, ∀ z ∈ kids d, (s'.node z).name = (s.node z).name)
    (hlink : ∀ z target, (s'.node z).linkTarget = some target → (s.node z).linkTarget = some target)
    (hnext : s'.nextNode = s.nextNode) : s'.Shape top kids := by
  simp only [VfsNode.frame, Prod.mk.injEq] at hframe
  refine ⟨hs.listed.congr fun z => ?_, hs.rooted.congr (funext fun z => (hframe z).1),
    hs.named.congr hnames fun z => ?_, hs.sorted.congr (fun z => ?_) hlink hnext⟩
  all_goals obtain ⟨hparent, hfirst, hlast, hnext, hprev, hcount, hindex, hkind,
    hmounted⟩ := hframe z
  · exact ⟨hfirst, hlast, hnext, hprev, hcount⟩
  · exact hindex
  · exact ⟨hkind, hmounted, hparent⟩

/-! ## Finding an entry -/

private theorem childWalk_eq {turns : Nat} {before : Option Nat}
    (hlinked : Linked s.next s.prev before xs none) (hturns : xs.length ≤ turns) :
    s.childWalk turns xs.head? = xs := by
  induction xs generalizing before turns with
  | nil => cases turns <;> rfl
  | cons x xs ih =>
    obtain ⟨-, hnext, hrest⟩ := hlinked
    obtain _ | turns := turns
    · cases hturns
    · rw [or_none] at hnext
      rw [head?_cons, childWalk, ← next, hnext, ih hrest (Nat.le_of_succ_le_succ hturns)]

/-- The walk over the children has turns for all of them. -/
theorem Listed.childList_eq (hl : s.Listed kids) (hsmall : ∀ x ∈ kids d, x < s.nextNode) :
    s.childList d = kids d := by
  have hlength : (kids d).length ≤ s.nextNode := by
    have hsub := subperm_of_subset (hl.nodup d) fun x hx => mem_range.mpr (hsmall x hx)
    simpa using hsub.length_le
  rw [childList, hl.first, childWalk_eq (hl.linked d) hlength]

/-- The list that is searched for a name. -/
theorem Shape.findEntry_eq (hs : s.Shape top kids)
    (hd : (s.node d).kind = .directory) (name : Name) :
    ∃ xs : List Nat, s.findEntry d name = xs.find? (fun x => (s.node x).name = name) ∧
      ∀ x, (s.node x).name = name → (x ∈ xs ↔ x ∈ kids d) := by
  unfold findEntry
  rw [if_neg (not_not.mpr hd)]
  cases hindex : (s.node d).childIndex with
  | none =>
    refine ⟨kids d, ?_, fun _ _ => Iff.rfl⟩
    rw [← hs.listed.childList_eq fun x hx => hs.kids_small hx]
  | some index =>
    refine ⟨_, rfl, fun x hx => ?_⟩
    rw [(hs.named.index d index hindex).mem, hx]
    simp

/-- An entry that is found is a child with the name. -/
theorem Shape.mem_of_findEntry (hs : s.Shape top kids) (hfind : s.findEntry d name = some x) :
    x ∈ kids d ∧ (s.node x).name = name := by
  by_cases hd : (s.node d).kind = .directory
  · obtain ⟨xs, heq, hmem⟩ := hs.findEntry_eq hd name
    rw [heq] at hfind
    have hname : (s.node x).name = name := by simpa using find?_some hfind
    exact ⟨(hmem x hname).mp (mem_of_find?_eq_some hfind), hname⟩
  · rw [findEntry, if_pos hd] at hfind
    cases hfind

/-- No entry is found exactly if no child has the name. -/
theorem Shape.findEntry_none (hs : s.Shape top kids) (hd : (s.node d).kind = .directory) :
    s.findEntry d name = none ↔ ∀ x ∈ kids d, (s.node x).name ≠ name := by
  obtain ⟨xs, heq, hmem⟩ := hs.findEntry_eq hd name
  rw [heq, find?_eq_none]
  constructor
  · intro hnone x hx hname
    exact hnone x ((hmem x hname).mpr hx) (by simpa using hname)
  · intro hnone x hx hname
    have hname : (s.node x).name = name := by simpa using hname
    exact hnone x ((hmem x hname).mp hx) hname

end Vfs

/-! ## Attaching -/

section Attach

variable {child parent : Nat}

private theorem Vfs.linkChild_node (s : Vfs) (parent child z : Nat) :
    (s.linkChild parent child).node z = { s.node z with
      parent := if z = child then some parent else s.parent z
      next := if (s.node parent).lastChild = some z then some child
        else if z = child then none else s.next z
      prev := if z = child then (s.node parent).lastChild else s.prev z
      children := if z = parent ∧ (s.node parent).lastChild = none then some child
        else (s.node z).children
      lastChild := if z = parent then some child else (s.node z).lastChild
      childCount := if z = parent then (s.node z).childCount + 1 else (s.node z).childCount } := by
  unfold Vfs.linkChild Vfs.parent Vfs.next Vfs.prev
  dsimp only
  rw [Vfs.node_set, Vfs.node_setAt, Vfs.node_set]
  by_cases hz : z = parent
  · subst hz
    simp only [if_true, true_and]
    split_ifs <;> rfl
  · simp only [hz, if_false, false_and]
    split_ifs <;> rfl

/-- The children after one has come to the end of a directory. -/
def addKid (kids : Nat → List Nat) (parent child : Nat) : Nat → List Nat :=
  Function.update kids parent (kids parent ++ [child])

/-- A new child comes last. -/
theorem addKid_apply (kids : Nat → List Nat) (parent child d : Nat) :
    addKid kids parent child d = if d = parent then kids parent ++ [child] else kids d :=
  Function.update_apply ..

private theorem mem_addKid {x : Nat} :
    x ∈ addKid kids parent child d ↔ x ∈ kids d ∨ d = parent ∧ x = child := by
  rw [addKid_apply]
  split_ifs with hd
  · subst hd
    simp
  · simp [hd]

/-- A child is put at the end of the list. -/
private theorem Vfs.Listed.linkChild (parent : Nat) (hl : s.Listed kids)
    (hapart : ∀ d e x, x ∈ kids d → x ∈ kids e → d = e)
    (hnew : ∀ d, child ∉ kids d) :
    (s.linkChild parent child).Listed (addKid kids parent child) := by
  have hlast := hl.last parent
  have hne : ∀ d, ∀ z ∈ kids d, z ≠ child := fun d z hz heq => hnew d (heq ▸ hz)
  have hnext :
      ∀ z, (s.linkChild parent child).next z = if (kids parent).getLast? = some z then some child
      else if z = child then none else s.next z := fun z => by
    rw [Vfs.next, Vfs.linkChild_node, hlast]
  have hprev : ∀ z, (s.linkChild parent child).prev z =
      if z = child then (kids parent).getLast? else s.prev z := fun z => by
    rw [Vfs.prev, Vfs.linkChild_node, hlast]
  have hself : (kids parent).getLast? ≠ some child := fun h =>
    hnew parent (mem_of_getLast? h)
  -- Head, tail, links, no child twice, and the count.
  refine ⟨fun d => ?_, fun d => ?_, fun d => ?_, fun d => ?_, fun d => ?_⟩ <;> rw [addKid_apply]
  · rw [Vfs.linkChild_node, hlast]
    dsimp only
    split_ifs with h1 h2 h2
    · rw [getLast?_eq_none_iff.mp h1.2]
      rfl
    · exact absurd h1.1 h2
    · -- the directory has a first child already
      rw [hl.first, h2]
      have hsome : kids parent ≠ [] := fun h => h1 ⟨h2, by rw [h]; rfl⟩
      cases hkids : kids parent with
      | nil => exact absurd hkids hsome
      | cons y rest => rfl
    · exact hl.first d
  · rw [Vfs.linkChild_node]
    dsimp only
    split_ifs with hd
    · rw [getLast?_concat]
    · exact hl.last d
  · split_ifs with hd
    · have hlinked : Linked s.next s.prev none (kids parent ++ []) none := by
        rw [append_nil]
        exact hl.linked parent
      refine hlinked.insert (by rw [append_nil]; exact hl.nodup parent) (fun z hz => ?_)
        (fun z hz => ?_) ?_ ?_
      · rw [append_nil] at hz
        rw [hnext, if_neg (hne parent z hz)]
      · rw [append_nil] at hz
        rw [hprev, if_neg (hne parent z hz)]
        rfl
      · rw [hnext, if_neg hself, if_pos rfl]
        rfl
      · rw [hprev, if_pos rfl, or_none]
    · -- the children of the other directories keep their links
      refine (hl.linked d).congr (fun z hz => ?_) fun z hz => ?_
      · rw [hnext, if_neg, if_neg (hne d z hz)]
        exact fun h => hd (hapart d parent z hz (mem_of_getLast? h))
      · rw [hprev, if_neg (hne d z hz)]
  · split_ifs
    · refine nodup_append'.mpr ⟨hl.nodup parent, nodup_singleton _, fun z hz hz' => ?_⟩
      exact hne parent z hz (mem_singleton.mp hz')
    · exact hl.nodup d
  · rw [Vfs.linkChild_node]
    dsimp only
    split_ifs with hd
    · rw [hd, hl.count, length_append, length_singleton]
    · exact hl.count d

/-- Attaching the top of what is cut off makes one tree again, if the place is in the tree. -/
theorem Vfs.Rooted.linkChild (hr : s.Rooted (some child) kids) (hchild : s.parent child = none)
    (hplace : Climbs s.parent parent vfsRoot) :
    (s.linkChild parent child).Rooted none (addKid kids parent child) := by
  have hparent : ∀ z, (s.linkChild parent child).parent z =
      if z = child then some parent else s.parent z := fun z => by
    rw [Vfs.parent, Vfs.linkChild_node]
  have hne : child ≠ vfsRoot := by
    rintro rfl
    rw [hr.root] at hchild
    cases hchild
  -- no chain went through the child
  have hmono : ∀ a b, s.parent a = some b → (s.linkChild parent child).parent a = some b := by
    intro a b hab
    rw [hparent, if_neg, hab]
    rintro rfl
    rw [hchild] at hab
    cases hab
  have htop : Climbs (s.linkChild parent child).parent child vfsRoot :=
    .step (by rw [hparent, if_pos rfl]) (hplace.mono hmono)
  refine ⟨fun d x => ?_, ?_, fun x hx => .inl ?_, fun d hd _ => ?_⟩
  · rw [mem_addKid, hr.parent, hparent]
    split_ifs with hx
    · simp [hx, hchild, hne, eq_comm]
    · simp [hx]
  · rw [hparent, if_neg (Ne.symm hne), hr.root]
  · rw [hparent] at hx
    split_ifs at hx with hxc
    · exact hxc ▸ htop
    rcases hr.climbs x hx with hroot | ⟨t, ht, hclimb⟩
    · exact hroot.mono hmono
    · obtain rfl := mem_some_iff.mp ht
      exact (hclimb.mono hmono).trans htop
  · rw [hparent] at hd
    split_ifs at hd with hdc
    have hdp : d ≠ parent := by
      -- the chain from the place ends at the root, which has a parent
      rintro rfl
      have hstuck : vfsRoot = d := hplace.eq_of_stuck fun y hy => by rw [hd] at hy; cases hy
      rw [← hstuck, hr.root] at hd
      cases hd
    rw [addKid_apply, if_neg hdp]
    exact hr.childless d hd (by simpa using Ne.symm hdc)

private theorem ChildIndex.insert_slot (index : ChildIndex) (name : Name) (child b : Nat) :
    (index.insert name child).slot b =
      if b = index.bucketOf name then child :: index.slot b else index.slot b :=
  modify_apply ..

private theorem ChildIndex.Holds.insert (hi : index.Holds s xs)
    (hx : x ∉ xs) : (index.insert (s.node x).name x).Holds s (xs ++ [x]) := by
  refine ⟨fun b y => ?_, fun b => ?_, hi.wide⟩
  · have hbucket : (index.insert (s.node x).name x).bucketOf = index.bucketOf := rfl
    rw [ChildIndex.insert_slot, hbucket, mem_append, mem_singleton]
    split_ifs with hb
    · rw [mem_cons, hi.mem]
      grind
    · rw [hi.mem]
      grind
  · rw [ChildIndex.insert_slot]
    split_ifs
    · exact nodup_cons.mpr ⟨fun hmem => hx ((hi.mem b x).mp hmem).1, hi.nodup b⟩
    · exact hi.nodup b

/-- An index is filled child by child. -/
theorem ChildIndex.Holds.fill {ys : List Nat} (hi : index.Holds s xs) (hnodup : (xs ++ ys).Nodup) :
    (ys.foldl (fun index child => index.insert (s.node child).name child) index).Holds s
      (xs ++ ys) := by
  induction ys generalizing index xs with
  | nil => simpa using hi
  | cons y ys ih =>
    have hy : y ∉ xs := fun hmem =>
      (nodup_cons.mp (nodup_middle.mp hnodup)).1 (mem_append_left _ hmem)
    have hsplit : xs ++ y :: ys = (xs ++ [y]) ++ ys := by simp
    rw [hsplit] at hnodup ⊢
    exact ih (hi.insert hy) hnodup

private theorem le_indexSize (childCount turns buckets : Nat) :
    buckets ≤ indexSize childCount turns buckets := by
  induction turns generalizing buckets with
  | zero => exact Nat.le_refl _
  | succ turns ih =>
    rw [indexSize]
    split_ifs
    · exact Nat.le_trans (by omega) (ih (buckets * 2))
    · exact Nat.le_refl _

namespace Vfs

/-- The index of a directory is what differs. -/
def Reindexed (s : Vfs) (d : Nat) (index : Option ChildIndex) (s' : Vfs) : Prop :=
  s'.nextNode = s.nextNode ∧ ∀ z, s'.node z =
    { s.node z with childIndex := if z = d then index else (s.node z).childIndex }

private theorem reindexed_set (s : Vfs) (d : Nat) (index : Option ChildIndex) :
    s.Reindexed d index (s.set d ({ · with childIndex := index })) := by
  refine ⟨rfl, fun z => ?_⟩
  rw [node_set]
  split_ifs <;> rfl

private theorem reindexed_self (s : Vfs) (d : Nat) : s.Reindexed d (s.node d).childIndex s := by
  refine ⟨rfl, fun z => ?_⟩
  split_ifs with hz
  · rw [hz]
  · rfl

/-- A child that has come is in the index of its directory, if there is one. -/
theorem Listed.indexAttached {old : List Nat} (hl : s.Listed kids)
    (hsmall : ∀ x ∈ kids parent, x < s.nextNode) (hkids : kids parent = old ++ [child])
    (hold : ∀ index, (s.node parent).childIndex = some index → index.Holds s old) :
    ∃ index : Option ChildIndex, (∀ i ∈ index, i.Holds s (kids parent)) ∧
      s.Reindexed parent index (s.indexAttached true parent child) := by
  have hnodup := hl.nodup parent
  have hnew : child ∉ old := by
    rw [hkids] at hnodup
    exact fun hmem => (nodup_append'.mp hnodup).2.2 hmem mem_cons_self
  have hrebuild : ∃ index : Option ChildIndex, (∀ i ∈ index, i.Holds s (kids parent)) ∧
      s.Reindexed parent index (s.indexRebuild true parent) := by
    refine ⟨_, fun i hi => ?_, s.reindexed_set ..⟩
    obtain rfl := some.inj hi
    rw [hl.childList_eq hsmall]
    have hempty : ChildIndex.Holds
        { buckets := indexSize (s.node parent).childCount (s.node parent).childCount 64
          slot := fun _ => [] } s [] :=
      ⟨fun b x => by simp, fun b => nodup_nil, le_indexSize ..⟩
    exact hempty.fill hnodup
  unfold Vfs.indexAttached
  dsimp only
  -- Small directories have no index; one that has grown too full is built anew.
  cases hindex : (s.node parent).childIndex with
  | none =>
    dsimp only
    split_ifs
    · exact hrebuild
    · exact ⟨none, fun i hi => (not_mem_none i hi).elim, hindex ▸ s.reindexed_self parent⟩
  | some index =>
    dsimp only
    split_ifs with hfew hmany
    · refine ⟨_, fun i hi => ?_, s.reindexed_set ..⟩
      obtain rfl := some.inj hi
      rw [hkids]
      exact (hold index hindex).insert hnew
    · exact hrebuild
    · -- an index is too wide for so few children
      have := (hold index hindex).wide
      omega

/-- A tree whose index of one directory has been brought up to date. -/
theorem Reindexed.shape {index : Option ChildIndex} (h : s.Reindexed d index s')
    (hlisted : s.Listed kids) (hrooted : s.Rooted top kids) (hsorted : s.Sorted kids)
    (hnames : ∀ d, (kids d).Pairwise fun x y => (s.node x).name ≠ (s.node y).name)
    (hindex : ∀ i ∈ index, i.Holds s (kids d))
    (hother : ∀ e i, e ≠ d → (s.node e).childIndex = some i → i.Holds s (kids e)) :
    s'.Shape top kids := by
  obtain ⟨hnext, hnode⟩ := h
  have hname : ∀ z, (s'.node z).name = (s.node z).name := fun z => by rw [hnode]
  -- Only the index of one directory differs.
  refine ⟨hlisted.congr fun z => ?_, hrooted.congr (funext fun z => ?_),
    ⟨fun e => ?_, fun e i he => ?_⟩,
    hsorted.congr (fun z => ?_) (fun z target hz => ?_) hnext⟩
  · rw [next, prev, hnode]
    exact ⟨rfl, rfl, rfl, rfl, rfl⟩
  · rw [parent, hnode]
    rfl
  · exact (hnames e).imp fun {x y} hxy => by rwa [hname, hname]
  · refine ChildIndex.Holds.congr ?_ fun z _ => hname z
    rw [hnode] at he
    dsimp only at he
    split_ifs at he with hed
    · exact hed ▸ hindex i he
    · exact hother e i hed he
  · rw [parent, hnode]
    exact ⟨rfl, rfl, rfl⟩
  · rw [hnode] at hz
    exact hz

private theorem Shape.apart (hs : s.Shape top kids) {d e : Nat} (hd : x ∈ kids d)
    (he : x ∈ kids e) :
    d = e :=
  some.inj ((hs.rooted.kids_parent hd).1.symm.trans (hs.rooted.kids_parent he).1)

/-- The top of what is cut off comes into a directory of the tree. -/
theorem Shape.attach {p : Process} (hs : s.Shape (some child) kids)
    (hchild : s.parent child = none) (hsmall : child < s.nextNode)
    (hplace : Climbs s.parent parent vfsRoot) (hattach : s.attach p true parent child = some s') :
    s'.Shape none (addKid kids parent child) ∧ s'.parent child = some parent := by
  unfold Vfs.attach at hattach
  split_ifs at hattach with hkind hfound
  obtain rfl := some.inj hattach
  have hdirectory : (s.node parent).kind = .directory := not_not.mp hkind
  have hnone : s.findEntry parent (s.node child).name = none := by
    simpa [findChild] using hfound
  -- The name is new in the directory, and the child is in no list.
  have hnames := (hs.findEntry_none hdirectory).mp hnone
  have hnew : ∀ d, child ∉ kids d := fun d hmem => by
    rw [(hs.rooted.kids_parent hmem).1] at hchild
    cases hchild
  have hlisted := hs.listed.linkChild parent (fun d e x hd he => hs.apart hd he) hnew
  have hrooted := hs.rooted.linkChild hchild hplace
  have hsorted : (s.linkChild parent child).Sorted (addKid kids parent child) := by
    refine hs.sorted.relink (fun z => ?_) (fun z target hz => ?_) rfl
      (fun d hd => ?_) fun z hz => ?_
    · rw [linkChild_node]
      exact ⟨rfl, rfl⟩
    · rwa [linkChild_node] at hz
    · rw [addKid_apply] at hd
      split_ifs at hd with hdp
      · exact .inr (hdp ▸ hdirectory)
      · exact .inl hd
    · rw [Vfs.parent, linkChild_node] at hz
      dsimp only at hz
      split_ifs at hz with hzc
      · exact .inr (hzc ▸ hsmall)
      · exact .inl hz
  have hname : ∀ z, ((s.linkChild parent child).node z).name = (s.node z).name := fun z => by
    rw [linkChild_node]
  have hheld : ∀ d index, ((s.linkChild parent child).node d).childIndex = some index →
      index.Holds (s.linkChild parent child) (kids d) := fun d index hd => by
    rw [linkChild_node] at hd
    exact (hs.named.index d index hd).congr fun z _ => hname z
  have hself : addKid kids parent child parent = kids parent ++ [child] := by
    rw [addKid_apply, if_pos rfl]
  -- The lists are right by now; what is left is the index.
  obtain ⟨index, hindex, hreindexed⟩ := hlisted.indexAttached
    (fun x hx => hsorted.small x (by rw [(hrooted.kids_parent hx).1]; rfl)) hself (hheld parent)
  refine ⟨hreindexed.shape hlisted hrooted hsorted (fun d => ?_) hindex fun e i he hi => ?_, ?_⟩
  · rw [addKid_apply]
    split_ifs
    · refine pairwise_append.mpr ⟨(hs.named.names parent).imp fun {x y} hxy => ?_,
        pairwise_singleton _ _, fun x hx y hy => ?_⟩
      · rwa [hname, hname]
      · rw [hname, hname, mem_singleton.mp hy]
        exact hnames x hx
    · exact (hs.named.names d).imp fun {x y} hxy => by rwa [hname, hname]
  · rw [addKid_apply, if_neg he]
    exact hheld e i hi
  · rw [Vfs.parent, hreindexed.2, linkChild_node]
    exact if_pos rfl

end Vfs

end Attach

/-! ## Detaching -/

section Detach

variable {child parent : Nat} {left right : List Nat}

/-- The nodes after a child was taken out. -/
theorem Vfs.unlinkChild_node (s : Vfs) (parent child z : Nat) :
    (s.unlinkChild parent child).node z = { s.node z with
      parent := if z = child then none else s.parent z
      next := if z = child then none else if s.prev child = some z then s.next child else s.next z
      prev := if z = child then none else if s.next child = some z then s.prev child else s.prev z
      children := if z = parent ∧ s.prev child = none then s.next child else (s.node z).children
      lastChild := if z = parent ∧ s.next child = none then s.prev child else (s.node z).lastChild
      childCount := if z = parent then (s.node z).childCount - 1 else (s.node z).childCount } := by
  unfold Vfs.unlinkChild Vfs.parent Vfs.next Vfs.prev
  dsimp only
  rw [Vfs.node_set, Vfs.node_set, Vfs.node_setAt, Vfs.node_setAt]
  by_cases hz : z = parent
  · subst hz
    simp only [if_true, true_and]
    split_ifs <;> rfl
  · simp only [hz, if_false, false_and]
    split_ifs <;> rfl

/-- The children after one is gone. -/
def dropKid (kids : Nat → List Nat) (parent child : Nat) : Nat → List Nat :=
  Function.update kids parent ((kids parent).erase child)

/-- The children without one. -/
theorem dropKid_apply (kids : Nat → List Nat) (parent child d : Nat) :
    dropKid kids parent child d = if d = parent then (kids parent).erase child else kids d :=
  Function.update_apply ..

namespace Vfs

/-- The children without one are the others. -/
theorem Shape.mem_dropKid (hs : s.Shape top kids) (hchild : child ∈ kids parent) :
    x ∈ dropKid kids parent child d ↔ x ∈ kids d ∧ x ≠ child := by
  rw [dropKid_apply]
  split_ifs with hd
  · rw [(hs.listed.nodup parent).mem_erase_iff, hd, and_comm]
  refine ⟨fun hx => ⟨hx, fun heq => hd ?_⟩, And.left⟩
  subst heq
  exact hs.apart hx hchild

/-- A child is taken out of the list. -/
private theorem Listed.unlinkChild (hl : s.Listed kids)
    (hapart : ∀ d e x, x ∈ kids d → x ∈ kids e → d = e) (hchild : child ∈ kids parent) :
    (s.unlinkChild parent child).Listed (dropKid kids parent child) := by
  obtain ⟨left, right, hsplit⟩ := append_of_mem hchild
  have hnodup := hl.nodup parent
  have hlinked := hl.linked parent
  rw [hsplit] at hnodup hlinked
  have hnot := (nodup_cons.mp (nodup_middle.mp hnodup)).1
  have hrest : (kids parent).erase child = left ++ right := by
    rw [hsplit, erase_append_right _ fun h => hnot (mem_append_left _ h), erase_cons_head]
  obtain ⟨-, hprevChild, hnextChild, -⟩ := linked_append.mp hlinked
  rw [or_none] at hprevChild hnextChild
  have hnext : ∀ z, z ≠ child → (s.unlinkChild parent child).next z =
      if left.getLast? = some z then right.head? else s.next z := fun z hz => by
    rw [next, unlinkChild_node, hprevChild, hnextChild]
    exact if_neg hz
  have hprev : ∀ z, z ≠ child → (s.unlinkChild parent child).prev z =
      if right.head? = some z then left.getLast? else s.prev z := fun z hz => by
    rw [prev, unlinkChild_node, hprevChild, hnextChild]
    exact if_neg hz
  have hmem : ∀ z ∈ left ++ right, z ∈ kids parent ∧ z ≠ child := fun z hz => by
    refine ⟨?_, fun heq => hnot (heq ▸ hz)⟩
    rw [hsplit]
    exact perm_middle.mem_iff.mpr (mem_cons_of_mem _ hz)
  -- Head, tail, links, no child twice, and the count.
  refine ⟨fun d => ?_, fun d => ?_, fun d => ?_, fun d => ?_, fun d => ?_⟩ <;> rw [dropKid_apply]
  · rw [unlinkChild_node, hprevChild, hnextChild]
    dsimp only
    by_cases hd : d = parent
    · rw [if_pos hd, hrest, hl.first, hd, hsplit]
      cases left with
      | nil => simp
      | cons y rest => simp
    · rw [if_neg hd, if_neg fun h => hd h.1, hl.first]
  · rw [unlinkChild_node, hprevChild, hnextChild]
    dsimp only
    by_cases hd : d = parent
    · rw [if_pos hd, hrest, hl.last, hd, hsplit]
      cases right with
      | nil => simp
      | cons y rest => simp
    · rw [if_neg hd, if_neg fun h => hd h.1, hl.last]
  · split_ifs with hd
    · rw [hrest]
      refine hlinked.remove hnodup (fun z hz => ?_) fun z hz => ?_
      · rw [hnext z (hmem z hz).2, or_none]
      · rw [hprev z (hmem z hz).2, or_none]
    · -- the children of the other directories keep their links
      have hother : ∀ z ∈ kids d, z ∉ kids parent := fun z hz hz' => hd (hapart d parent z hz hz')
      refine (hl.linked d).congr (fun z hz => ?_) fun z hz => ?_
      · rw [hnext z fun heq => hother z hz (heq ▸ hchild), if_neg fun h => hother z hz ?_]
        exact (hmem z (mem_append_left _ (mem_of_getLast? h))).1
      · rw [hprev z fun heq => hother z hz (heq ▸ hchild), if_neg fun h => hother z hz ?_]
        exact (hmem z (mem_append_right _ (mem_of_head? h))).1
  · split_ifs
    · exact (hl.nodup parent).erase child
    · exact hl.nodup d
  · rw [unlinkChild_node]
    dsimp only
    split_ifs with hd
    · rw [hd, hl.count, length_erase_of_mem hchild]
    · exact hl.count d

/-- Detaching a child cuts the tree at it. -/
theorem Rooted.unlinkChild (hr : s.Rooted none kids) (hchild : child ∈ kids parent)
    (hkids : ∀ d x, x ∈ dropKid kids parent child d ↔ x ∈ kids d ∧ x ≠ child) :
    (s.unlinkChild parent child).Rooted (some child) (dropKid kids parent child) := by
  have hparent :
      ∀ z, (s.unlinkChild parent child).parent z = if z = child then none else s.parent z :=
    fun z => by rw [Vfs.parent, unlinkChild_node]
  have hroot : child ≠ vfsRoot := (hr.kids_parent hchild).2
  refine ⟨fun d x => ?_, ?_, fun x hx => ?_, fun d hd hdc => ?_⟩
  · rw [hkids, hr.parent, hparent]
    by_cases hx : x = child <;> simp [hx]
  · rw [hparent, if_neg (Ne.symm hroot), hr.root]
  · rw [hparent] at hx
    split_ifs at hx with hxc
    · cases hx
    have hold := (hr.climbs x hx).resolve_right fun ⟨t, ht, _⟩ => not_mem_none t ht
    -- the chain leads to the root still, or ends at the child
    exact (hold.cut fun a ha => by rw [hparent, if_neg ha]).imp_right fun h =>
      ⟨child, mem_some_self _, h⟩
  · rw [hparent] at hd
    split_ifs at hd with hdc'
    · exact absurd (hdc' ▸ mem_some_self _) hdc
    have hempty := hr.childless d hd (not_mem_none d)
    exact eq_nil_iff_forall_not_mem.mpr fun x hx =>
      not_mem_nil (hempty ▸ ((hkids d x).mp hx).1)

/-- The index and the links of a directory do not meet. -/
theorem Reindexed.unlinkChild {index : Option ChildIndex} (h : s.Reindexed d index s') :
    (s.unlinkChild parent child).Reindexed d index (s'.unlinkChild parent child) := by
  obtain ⟨hnext, hnode⟩ := h
  refine ⟨hnext, fun z => ?_⟩
  simp only [unlinkChild_node, Vfs.parent, Vfs.next, Vfs.prev, hnode]
  rfl

end Vfs

private theorem ChildIndex.remove_slot (index : ChildIndex) (name : Name) (child b : Nat) :
    (index.remove name child).slot b =
      if b = index.bucketOf name then (index.slot b).erase child else index.slot b :=
  modify_apply index.slot (·.erase child) _ b

private theorem ChildIndex.Holds.remove (hi : index.Holds s xs)
    (hxs : xs.Nodup) (x : Nat) : (index.remove (s.node x).name x).Holds s (xs.erase x) := by
  have hbucket : (index.remove (s.node x).name x).bucketOf = index.bucketOf := rfl
  refine ⟨fun b y => ?_, fun b => ?_, hi.wide⟩
  · rw [ChildIndex.remove_slot, hbucket, hxs.mem_erase_iff]
    split_ifs with hb
    · rw [(hi.nodup b).mem_erase_iff, hi.mem, and_assoc]
    rw [hi.mem]
    refine ⟨fun h => ⟨⟨fun heq => hb ?_, h.1⟩, h.2⟩, fun h => ⟨h.1.2, h.2⟩⟩
    rw [← h.2, heq]
  · rw [ChildIndex.remove_slot]
    split_ifs
    · exact (hi.nodup b).erase x
    · exact hi.nodup b

/-- An entry is cut off with all that is below it. -/
theorem Vfs.Shape.detach (hs : s.Shape none kids) (hchild : child ∈ kids parent) :
    ∃ s', s.detachChild parent child = some s' ∧ s'.Shape (some child) (dropKid kids parent child) ∧
      s'.nextNode = s.nextNode ∧ (∀ z, s'.parent z = if z = child then none else s.parent z) ∧
      ∀ z, (s'.node z).name = (s.node z).name ∧ (s'.node z).kind = (s.node z).kind ∧
        (s'.node z).linkTarget = (s.node z).linkTarget := by
  have hkids : ∀ d x, x ∈ dropKid kids parent child d ↔ x ∈ kids d ∧ x ≠ child :=
    fun d x => hs.mem_dropKid hchild
  have hlisted := hs.listed.unlinkChild (fun d e x hd he => hs.apart hd he) hchild
  have hrooted := hs.rooted.unlinkChild hchild hkids
  have hsorted : (s.unlinkChild parent child).Sorted (dropKid kids parent child) := by
    refine hs.sorted.relink (fun z => ?_) (fun z target hz => ?_) rfl (fun d hd => .inl ?_)
      fun z hz => .inl ?_
    · rw [Vfs.unlinkChild_node]
      exact ⟨rfl, rfl⟩
    · rwa [Vfs.unlinkChild_node] at hz
    · obtain ⟨x, hx⟩ := exists_mem_of_ne_nil _ hd
      exact ne_nil_of_mem ((hkids d x).mp hx).1
    · rw [Vfs.parent, Vfs.unlinkChild_node] at hz
      dsimp only at hz
      split_ifs at hz
      · cases hz
      · exact hz
  -- The index loses the child first; the links change afterwards.
  have hreindexed : (s.unlinkChild parent child).Reindexed parent
      ((s.node parent).childIndex.map fun index => index.remove (s.node child).name child)
      ((s.set parent fun d => { d with
        childIndex := d.childIndex.map fun index =>
          index.remove (s.node child).name child }).unlinkChild parent child) := by
    refine Vfs.Reindexed.unlinkChild ⟨rfl, fun z => ?_⟩
    rw [Vfs.node_set]
    split_ifs with hz
    · rw [hz]
    · rfl
  have hheld : ∀ d index, ((s.unlinkChild parent child).node d).childIndex = some index →
      index.Holds (s.unlinkChild parent child) (kids d) := fun d index hd => by
    rw [Vfs.unlinkChild_node] at hd
    exact (hs.named.index d index hd).congr fun z _ => by rw [Vfs.unlinkChild_node]
  refine ⟨_, by rw [Vfs.detachChild, if_neg]; exact not_not.mpr (hs.rooted.kids_parent hchild).1,
    hreindexed.shape hlisted hrooted hsorted (fun d => ?_) (fun i hi => ?_)
      fun e i he hi => ?_, rfl,
    fun z => ?_, fun z => ?_⟩
  · have hname : ∀ z, ((s.unlinkChild parent child).node z).name = (s.node z).name := fun z => by
      rw [Vfs.unlinkChild_node]
    have hsub : (dropKid kids parent child d).Sublist (kids d) := by
      rw [dropKid_apply]
      split_ifs with hd
      · exact hd ▸ erase_sublist
      · exact Sublist.refl _
    exact ((hs.named.names d).sublist hsub).imp fun {x y} hxy => by rwa [hname, hname]
  · obtain ⟨index, hindex, rfl⟩ := map_eq_some_iff.mp hi
    rw [dropKid_apply, if_pos rfl]
    have hremoved := (hs.named.index parent index hindex).remove (hs.listed.nodup parent) child
    exact hremoved.congr fun z _ => by rw [Vfs.unlinkChild_node]
  · rw [dropKid_apply, if_neg he]
    exact hheld e i hi
  · rw [Vfs.parent, hreindexed.2, Vfs.unlinkChild_node]
  · rw [hreindexed.2, Vfs.unlinkChild_node]
    exact ⟨rfl, rfl, rfl⟩

/-- What is cut off and has nothing below it can be forgotten. -/
theorem Vfs.Shape.forget (hs : s.Shape (some x) kids) (hx : s.parent x = none)
    (hempty : kids x = []) :
    s.Shape none kids := by
  refine ⟨hs.listed, ⟨hs.rooted.parent, hs.rooted.root, fun y hy => .inl ?_, fun d hd _ => ?_⟩,
    hs.named, hs.sorted⟩
  · refine (hs.rooted.climbs y hy).resolve_right ?_
    rintro ⟨t, ht, hclimb⟩
    obtain rfl := mem_some_iff.mp ht
    -- the last step of the chain would come from a child
    rcases Relation.ReflTransGen.cases_tail hclimb with heq | ⟨z, -, hz⟩
    · rw [← heq, hx] at hy
      cases hy
    · have hroot : z ≠ vfsRoot := by
        rintro rfl
        rw [hs.rooted.root] at hz
        rw [← some.inj hz, hs.rooted.root] at hx
        cases hx
      exact not_mem_nil (hempty ▸ (hs.rooted.parent _ z).mpr ⟨hz, hroot⟩)
  · by_cases hdx : d = x
    · exact hdx ▸ hempty
    · exact hs.rooted.childless d hd fun hmem => hdx (mem_some_iff.mp hmem).symm

/-- A tree that is whole is one with anything cut off. -/
theorem Vfs.Shape.cutAt (hs : s.Shape none kids) (x : Nat) : s.Shape (some x) kids := by
  refine ⟨hs.listed, ⟨hs.rooted.parent, hs.rooted.root, fun y hy => .inl ?_,
    fun d hd _ => hs.rooted.childless d hd (not_mem_none d)⟩, hs.named, hs.sorted⟩
  exact (hs.rooted.climbs y hy).resolve_right fun ⟨t, ht, _⟩ => not_mem_none t ht

end Detach

end Shape

end Tunix.Fs
