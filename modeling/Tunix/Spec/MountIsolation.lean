import Tunix.Spec.LookupFrame
import Tunix.Spec.VfsRuns

/-!
# Isolation of mount namespaces

A namespace is a list of overrides over mounts that all processes share, and the table of mounts is
one for all. A process of the first namespace mounts and unmounts for all; one with a namespace of
its own changes its own overrides, but it still takes entries of the table away and changes their
flags, and a bind mount makes an entry that is found for the tree it binds. `Mounts.Apart` says when
none of this is seen by a process of another namespace, and `Mounts.observe_of_run` that then
nothing is.
-/

namespace Tunix.Fs

open DoublyLinked Steps Table List Option Except Vfs

/-! ## Trees that are in order -/

/-- The lists of children are in order, with their parents, and no pointer leads outside. -/
structure Mounts.Wf (m : Mounts) (kids : Nat → List Nat) : Prop where
  listed : m.tree.Listed kids
  parent : ∀ d, ∀ x ∈ kids d, (m.tree.node x).parent = some d
  small : ∀ d, ∀ x ∈ kids d, x < m.tree.nextNode
  unused : ∀ d, m.tree.nextNode ≤ d → kids d = []
  rootSmall : vfsRoot < m.tree.nextNode
  pointers : ∀ x < m.tree.nextNode, ∀ y, ((m.tree.node x).parent = some y ∨
    (m.tree.node x).linkTarget = some y ∨ (m.tree.node x).mounted = some y ∨
    ∃ index b, (m.tree.node x).childIndex = some index ∧ y ∈ index.slot b) → y < m.tree.nextNode
  overrides : ∀ ns, ∀ o ∈ m.overrides ns, o.place < m.tree.nextNode ∧ ∀ root ∈ o.root,
    root < m.tree.nextNode
  owned : ∀ entry ∈ m.table, entry.ownsRoot = true → ∀ d, entry.root ∉ kids d

section Wf

variable {m m' : Mounts} {kids : Nat → List Nat} {p : MountProcess} {x d : Nat}

/-- The list of a directory holds its children. -/
theorem Mounts.Wf.childList_eq (hm : m.Wf kids) (d : Nat) : m.tree.childList d = kids d :=
  hm.listed.childList_eq (hm.small d)

private theorem Mounts.Wf.resolve_small (hm : m.Wf kids) (hx : x < m.tree.nextNode)
    (hover : (m.view p).resolve x = some d) : d < m.tree.nextNode := by
  obtain ⟨ns, -, hresolve⟩ := bind_eq_some_iff.mp hover
  obtain ⟨o, ho, hd⟩ := map_eq_some_iff.mp hresolve
  obtain ⟨hplace, hroot⟩ := hm.overrides ns o (mem_of_find?_eq_some ho)
  cases hor : o.root with
  | none => rw [hor, getD_none] at hd; exact hd ▸ hx
  | some root => rw [hor, getD_some] at hd; exact hd ▸ hroot root hor

private theorem Mounts.Wf.visible_small (hm : m.Wf kids) (hp : p.root < m.tree.nextNode)
    (hx : m.tree.Visible (m.view p) x) : x < m.tree.nextNode := by
  induction hx with
  | root => exact hm.rootSmall
  | processRoot => exact hp
  | child _ hx _ => rw [hm.childList_eq] at hx; exact hm.small _ _ hx
  | indexed _ hindex hx ih => exact hm.pointers _ ih _ (.inr (.inr (.inr ⟨_, _, hindex, hx⟩)))
  | link _ hlink ih => exact hm.pointers _ ih _ (.inr (.inl hlink))
  | parent _ hparent ih => exact hm.pointers _ ih _ (.inl hparent)
  | mounted _ hmounted ih => exact hm.pointers _ ih _ (.inr (.inr (.inl hmounted)))
  | covered _ hover ih => exact hm.resolve_small ih hover

/-! ## Nodes without children -/

/-- All of a node but its counts. -/
def VfsNode.SameButCounts (a b : VfsNode) : Prop := ∃ links refs, b = { a with links, refs }

/-- The lists of children without those of the nodes that are freed. -/
def cutKids (kids : Nat → List Nat) (gone : List Nat) (d : Nat) : List Nat :=
  if d ∈ gone then [] else kids d

/-- Some nodes of the tree have no children any more, and point to a parent at most; of the others
    only the counts change. -/
theorem Mounts.Wf.cut (hm : m.Wf kids) {tree : Vfs} {gone : List Nat}
    (hnext : m.tree.nextNode ≤ tree.nextNode)
    (hnew : ∀ z < tree.nextNode, z ∉ gone → z < m.tree.nextNode)
    (hsame : ∀ z, z ∉ gone → (m.tree.node z).SameButCounts (tree.node z))
    (hempty : ∀ z ∈ gone, ∃ name type, ∃ parent : Option Nat, (∀ y ∈ parent, y < m.tree.nextNode) ∧
      VfsNode.SameButCounts { newNode name type with parent } (tree.node z))
    (hstay : ∀ d, d ∉ gone → ∀ x ∈ kids d, x ∉ gone) :
    Mounts.Wf { m with tree } (cutKids kids gone) := by
  have hsub : ∀ {d x}, x ∈ cutKids kids gone d → d ∉ gone ∧ x ∈ kids d := by
    intro d x hx
    rw [cutKids] at hx
    split_ifs at hx with hd
    · cases hx
    · exact ⟨hd, hx⟩
  -- the list of a node, and what the node says of it
  have hlist : ∀ d, (tree.node d).children = (cutKids kids gone d).head? ∧
      (tree.node d).lastChild = (cutKids kids gone d).getLast? ∧
      (tree.node d).childCount = (cutKids kids gone d).length := by
    intro d
    rw [cutKids]
    split_ifs with hd
    · obtain ⟨_, _, _, _, _, _, heq⟩ := hempty d hd
      rw [heq]
      exact ⟨rfl, rfl, rfl⟩
    · obtain ⟨_, _, heq⟩ := hsame d hd
      rw [heq]
      exact ⟨hm.listed.first d, hm.listed.last d, hm.listed.count d⟩
  refine ⟨⟨fun d => (hlist d).1, fun d => (hlist d).2.1, fun d => ?_, fun d => ?_,
    fun d => (hlist d).2.2⟩,
    fun d x hx => ?_,
      fun d x hx => Nat.lt_of_lt_of_le (hm.small d x (hsub hx).2) hnext, fun d hd => ?_,
    Nat.lt_of_lt_of_le hm.rootSmall hnext, fun x hx y hy => Nat.lt_of_lt_of_le ?_ hnext,
      fun ns o ho => ?_,
    fun entry hentry howns d hd => hm.owned entry hentry howns d (hsub hd).2⟩
  · rw [cutKids]
    split_ifs with hd
    · trivial
    refine (hm.listed.linked d).congr (fun z hz => ?_) fun z hz => ?_ <;>
      obtain ⟨_, _, heq⟩ := hsame z (hstay d hd z hz)
    · rw [Vfs.next, heq]; rfl
    · rw [Vfs.prev, heq]; rfl
  · rw [cutKids]
    split_ifs
    · exact nodup_nil
    · exact hm.listed.nodup d
  · obtain ⟨_, _, heq⟩ := hsame x (hstay d (hsub hx).1 x (hsub hx).2)
    rw [heq]
    exact hm.parent d x (hsub hx).2
  · rw [cutKids, hm.unused d (Nat.le_trans hnext hd), ite_self]
  · by_cases hgx : x ∈ gone
    · obtain ⟨name, type, parent, hparent, _, _, heq⟩ := hempty x hgx
      rw [heq] at hy
      obtain hy | hy | hy | ⟨_, _, hy, _⟩ := hy
      · exact hparent y hy
      all_goals cases hy
    · obtain ⟨_, _, heq⟩ := hsame x hgx
      rw [heq] at hy
      exact hm.pointers x (hnew x hx hgx) y hy
  · obtain ⟨h1, h2⟩ := hm.overrides ns o ho
    exact ⟨Nat.lt_of_lt_of_le h1 hnext, fun root hroot => Nat.lt_of_lt_of_le (h2 root hroot) hnext⟩

/-! ## A new root -/

private theorem Vfs.addRoot_node (s : Vfs) (place z : Nat) : (s.addRoot place).node z =
    if z = s.nextNode then
      { newNode (s.node place).name .directory with parent := (s.node place).parent }
    else s.node z :=
  allocNode_node ..

private theorem Mounts.Wf.addRoot (hm : m.Wf kids) {place : Nat}
    (hplace : place < m.tree.nextNode) :
    Mounts.Wf { m with tree := m.tree.addRoot place } kids := by
  have hcut : cutKids kids [m.tree.nextNode] = kids := by
    funext d
    rw [cutKids]
    split_ifs with hd
    · exact (hm.unused d (Nat.le_of_eq (mem_singleton.mp hd).symm)).symm
    · rfl
  rw [← hcut]
  refine hm.cut (Nat.le_succ _) (fun z hz hne => ?_) (fun z hz => ?_) (fun z hz => ?_)
    fun d _ x hx hmem => ?_
  · exact Nat.lt_of_le_of_ne (Nat.le_of_lt_succ hz) (mt mem_singleton.mpr hne)
  · rw [addRoot_node, if_neg (mt mem_singleton.mpr hz)]
    exact ⟨_, _, rfl⟩
  · -- the root points to the parent of the mount point only
    rw [addRoot_node, if_pos (mem_singleton.mp hz)]
    exact ⟨_, _, _, fun y hy => hm.pointers place hplace y (.inl hy), _, _, rfl⟩
  · exact absurd (mem_singleton.mp hmem) (Nat.ne_of_lt (hm.small d x hx))

/-- Nothing that can be seen changes when a root comes. -/
theorem Mounts.Wf.agree_addRoot (hm : m.Wf kids) (hp : p.root < m.tree.nextNode) {place : Nat}
    (hplace : place < m.tree.nextNode) : m.tree.Agree (m.tree.addRoot place) (m.view p) where
  same x hx := by
    rw [addRoot_node, if_neg (Nat.ne_of_lt (hm.visible_small hp hx))]
    exact ⟨rfl, rfl, rfl, rfl, rfl, rfl, rfl⟩
  children d _ := ((hm.addRoot hplace).childList_eq d).trans (hm.childList_eq d).symm

/-! ## A tree that is freed -/

private theorem Vfs.destroyNode_node (s : Vfs) (x : Nat) {z : Nat} (hz : z ≠ x) :
    (s.node z).SameButCounts ((s.destroyNode x).node z) := by
  unfold destroyNode
  split
  · unfold nodeUnref
    rw [node_set, node_set, node_set, if_neg hz]
    split_ifs
    · exact ⟨_, _, rfl⟩
    · exact ⟨_, _, rfl⟩
  · rw [node_set, if_neg hz]
    exact ⟨_, _, rfl⟩

private theorem Vfs.destroyNode_nextNode (s : Vfs) (x : Nat) :
    (s.destroyNode x).nextNode = s.nextNode := by
  unfold destroyNode
  split <;> rfl

/-- The nodes of the list are freed, and of the others only the counts change. -/
theorem Vfs.foldl_freeNode (s : Vfs) (xs : List Nat) : (xs.foldl freeNode s).nextNode = s.nextNode ∧
    ∀ z, (if z ∈ xs then newNode [] .file else s.node z).SameButCounts
      ((xs.foldl freeNode s).node z) := by
  induction xs generalizing s with
  | nil => exact ⟨rfl, fun z => by rw [if_neg not_mem_nil]; exact ⟨_, _, rfl⟩⟩
  | cons x xs ih =>
    obtain ⟨hnext, hnode⟩ := ih (s.freeNode x)
    refine ⟨hnext.trans (s.destroyNode_nextNode x), fun z => ?_⟩
    obtain ⟨links, refs, heq⟩ := hnode z
    rw [foldl_cons, heq]
    by_cases hz : z ∈ xs
    · rw [if_pos hz, if_pos (mem_cons_of_mem x hz)]
      exact ⟨links, refs, rfl⟩
    rw [if_neg hz, freeNode, node_set]
    by_cases hx : z = x
    · rw [if_pos hx, if_pos (by rw [hx]; exact mem_cons_self)]
      exact ⟨links, refs, rfl⟩
    · rw [if_neg hx, if_neg fun hmem => (mem_cons.mp hmem).elim hx hz]
      obtain ⟨links', refs', heq'⟩ := s.destroyNode_node x hx
      rw [heq']
      exact ⟨links, refs, rfl⟩

/-- Whoever is in a tree is its top, or a child of someone there. -/
theorem Vfs.mem_treeNodes (s : Vfs) {turns top : Nat} (hx : x ∈ s.treeNodes turns top) :
    x = top ∨ ∃ y ∈ s.treeNodes turns top, x ∈ s.childList y := by
  induction turns generalizing top with
  | zero => exact .inl (mem_singleton.mp hx)
  | succ turns ih =>
    rcases mem_cons.mp hx with rfl | hx
    · exact .inl rfl
    obtain ⟨c, hc, hx⟩ := mem_flatMap.mp hx
    refine .inr ?_
    rcases ih hx with rfl | ⟨y, hy, hxy⟩
    · exact ⟨top, mem_cons_self, hc⟩
    · exact ⟨y, mem_cons_of_mem _ (mem_flatMap.mpr ⟨c, hc, hy⟩), hxy⟩

/-- What is below a node that cannot be seen cannot be seen: its parents lead there. -/
theorem Mounts.Wf.treeNodes_hidden (hm : m.Wf kids) {turns top : Nat}
    (htop : ¬ m.tree.Visible (m.view p) top) (hx : x ∈ m.tree.treeNodes turns top) :
    ¬ m.tree.Visible (m.view p) x := by
  induction turns generalizing top with
  | zero => exact mem_singleton.mp hx ▸ htop
  | succ turns ih =>
    rcases mem_cons.mp hx with rfl | hx
    · exact htop
    obtain ⟨c, hc, hx⟩ := mem_flatMap.mp hx
    rw [hm.childList_eq] at hc
    exact ih (fun hvisible => htop (.parent hvisible (hm.parent top c hc))) hx

private theorem Mounts.Wf.freeTree (hm : m.Wf kids) {top : Nat} (htop : ∀ d, top ∉ kids d) :
    ∃ kids', Mounts.Wf { m with tree := m.tree.freeTree top } kids' ∧
      ∀ d, d ∉ m.tree.treeNodes m.tree.nextNode top → kids' d = kids d := by
  obtain ⟨hnext, hnode⟩ := m.tree.foldl_freeNode (m.tree.treeNodes m.tree.nextNode top)
  generalize hgone : m.tree.treeNodes m.tree.nextNode top = gone at hnext hnode
  -- a child of a node that stays is not freed
  have hstay : ∀ d, d ∉ gone → ∀ x ∈ kids d, x ∉ gone := by
    intro d hd x hx hxgone
    rw [← hgone] at hxgone
    rcases m.tree.mem_treeNodes hxgone with rfl | ⟨y, hy, hxy⟩
    · exact htop d hx
    rw [hm.childList_eq] at hxy
    have hyd := (hm.parent y x hxy).symm.trans (hm.parent d x hx)
    exact hd (some.inj hyd ▸ hgone ▸ hy)
  have hfree : m.tree.freeTree top = gone.foldl Vfs.freeNode m.tree := by rw [Vfs.freeTree, hgone]
  rw [hfree]
  refine ⟨cutKids kids gone,
    hm.cut (Nat.le_of_eq hnext.symm) (fun z hz _ => hnext ▸ hz) (fun z hz => ?_)
    (fun z hz => ?_) hstay, fun d hd => if_neg hd⟩
  · simpa only [if_neg hz] using hnode z
  · have hfreed := hnode z
    rw [if_pos hz] at hfreed
    exact ⟨[], .file, none, nofun, hfreed⟩

/-- Nothing that can be seen changes when a tree goes that cannot be seen. -/
theorem Mounts.Wf.agree_freeTree (hm : m.Wf kids) {top : Nat} (htop : ∀ d, top ∉ kids d)
    (hhidden : ¬ m.tree.Visible (m.view p) top) :
    m.tree.Agree (m.tree.freeTree top) (m.view p) := by
  have hstay : ∀ x, m.tree.Visible (m.view p) x → x ∉ m.tree.treeNodes m.tree.nextNode top :=
    fun x hx hmem => hm.treeNodes_hidden hhidden hmem hx
  refine ⟨fun x hx => ?_, fun d hd => ?_⟩
  · obtain ⟨links, refs, heq⟩ := (m.tree.foldl_freeNode (m.tree.treeNodes m.tree.nextNode top)).2 x
    rw [Vfs.freeTree, heq, if_neg (hstay x hx)]
    exact ⟨rfl, rfl, rfl, rfl, rfl, rfl, rfl⟩
  · obtain ⟨kids', hm', hsame⟩ := hm.freeTree htop
    rw [hm.childList_eq, ← hsame d (hstay d hd)]
    exact hm'.childList_eq d

/-! ## Overrides -/

private theorem mem_replaceOverride {o o' : MountOverride}
    {overrides overrides' : List MountOverride}
    (h : replaceOverride o overrides = some overrides') (hmem : o' ∈ overrides') :
    o' = o ∨ o' ∈ overrides := by
  induction overrides generalizing overrides' with
  | nil => cases h
  | cons other rest ih =>
    rw [replaceOverride] at h
    split_ifs at h
    · obtain rfl := some.inj h
      exact (mem_cons.mp hmem).imp_right (mem_cons_of_mem other)
    · obtain ⟨rest', hrest, rfl⟩ := map_eq_some_iff.mp h
      rcases mem_cons.mp hmem with rfl | hmem
      · exact .inr mem_cons_self
      · exact (ih hrest hmem).imp_right (mem_cons_of_mem other)

private theorem mem_putOverride {memory : Bool} {o o' : MountOverride}
    {overrides overrides' : List MountOverride}
    (h : putOverride memory o overrides = some overrides') (hmem : o' ∈ overrides') :
    o' = o ∨ o' ∈ overrides := by
  unfold putOverride at h
  split at h
  · next replaced hreplaced => exact mem_replaceOverride hreplaced (some.inj h ▸ hmem)
  split_ifs at h
  obtain rfl := some.inj h
  exact mem_cons.mp hmem

/-- A namespace gets an override: what is seen from the others stays. -/
theorem Mounts.Wf.putOverride {memory : Bool} {ns : Nat} {o : MountOverride} (hm : m.Wf kids)
    (ho : o.place < m.tree.nextNode ∧ ∀ root ∈ o.root, root < m.tree.nextNode)
    (hput : m.putOverride memory ns o = some m') :
    m'.Wf kids ∧ m'.tree = m.tree ∧ m'.table = m.table ∧
      ∀ p : MountProcess, p.mntNs ≠ some ns → m'.view p = m.view p := by
  obtain ⟨overrides, hoverrides, rfl⟩ := map_eq_some_iff.mp hput
  refine ⟨⟨hm.listed, hm.parent, hm.small, hm.unused, hm.rootSmall, hm.pointers,
    fun ns' o' ho' => ?_,
    hm.owned⟩, rfl, rfl, fun p hp => ?_⟩
  · dsimp only at ho'
    by_cases hns : ns' = ns
    · rw [hns, Function.update_self] at ho'
      rcases mem_putOverride hoverrides ho' with rfl | hmem
      · exact ho
      · exact hm.overrides ns o' hmem
    · rw [Function.update_of_ne hns] at ho'
      exact hm.overrides ns' o' ho'
  · unfold Mounts.view
    congr 1
    funext x
    unfold Mounts.mntNsResolve
    cases hns : p.mntNs with
    | none => rfl
    | some ns' =>
      have hne : ns' ≠ ns := fun heq => hp (heq ▸ hns)
      rw [bind_some, bind_some]
      dsimp only
      rw [Function.update_of_ne hne]

end Wf

/-! ## The table -/

section Table

variable {table : List MountEntry} {target : Name} {x : Nat} {entry : MountEntry}

/-- Other flags for an entry do not change what is found for other roots. -/
theorem find_setFlags {flags : UInt32}
    (hother : ∀ entry, table.find? (fun entry => entry.target = target) = some entry →
      entry.root ≠ x) :
    (setFlags target flags table).find? (fun entry => entry.root = x) = table.find? fun entry =>
      entry.root = x := by
  induction table with
  | nil => rfl
  | cons entry rest ih =>
    rw [setFlags]
    by_cases htarget : entry.target = target
    · have hne : entry.root ≠ x := hother entry (by rw [find?_cons_of_pos (by simpa using htarget)])
      rw [if_pos htarget, find?_cons_of_neg (by simpa using hne),
        find?_cons_of_neg (by simpa using hne)]
    · rw [if_neg htarget, find?_cons, find?_cons]
      split
      · rfl
      refine ih fun found hfound => hother found ?_
      rw [find?_cons_of_neg (by simpa using htarget)]
      exact hfound

private theorem mem_setFlags {flags : UInt32} (hmem : entry ∈ setFlags target flags table) :
    ∃ old ∈ table, entry.root = old.root ∧ entry.ownsRoot = old.ownsRoot := by
  induction table with
  | nil => cases hmem
  | cons first rest ih =>
    rw [setFlags] at hmem
    split_ifs at hmem
    · rcases mem_cons.mp hmem with rfl | hmem
      · exact ⟨first, mem_cons_self, rfl, rfl⟩
      · exact ⟨entry, mem_cons_of_mem first hmem, rfl, rfl⟩
    · rcases mem_cons.mp hmem with rfl | hmem
      · exact ⟨entry, mem_cons_self, rfl, rfl⟩
      · obtain ⟨old, hold, h⟩ := ih hmem
        exact ⟨old, mem_cons_of_mem first hold, h⟩

/-- A new entry does not change what is found for other roots, nor, behind the others, for its own
    if there is one already. -/
theorem find_mountInsert (hother : entry.root ≠ x ∨
      entry.target ≠ ['/'] ∧ (table.find? fun entry => entry.root = x).isSome) :
    (mountInsert entry table).find? (fun entry => entry.root = x) = table.find? fun entry =>
      entry.root = x := by
  unfold mountInsert
  rcases hother with hne | ⟨htarget, hsome⟩
  · split_ifs
    · rw [find?_cons_of_neg (by simpa using hne)]
    · rw [find?_append, find?_cons_of_neg (by simpa using hne), find?_nil, or_none]
  · obtain ⟨found, hfound⟩ := isSome_iff_exists.mp hsome
    rw [if_neg htarget, find?_append, hfound, some_or]

private theorem mem_mountInsert {other : MountEntry} (hmem : other ∈ mountInsert entry table) :
    other = entry ∨ other ∈ table := by
  unfold mountInsert at hmem
  split_ifs at hmem
  · exact mem_cons.mp hmem
  rcases mem_append.mp hmem with hmem | hmem
  · exact .inr hmem
  · exact .inl (mem_singleton.mp hmem)

/-- An entry that goes does not change what is found for other roots. -/
theorem find_dropLastMount
    (hlast : table.reverse.find? (fun entry => entry.target = target) = some entry)
    (hne : entry.root ≠ x) :
    (dropLastMount target table).find? (fun entry => entry.root = x) = table.find? fun entry =>
      entry.root = x := by
  -- the table in two parts, with the entry between them
  obtain ⟨htarget, before, after, hsplit, hbefore⟩ := find?_eq_some_iff_append.mp hlast
  have htable : table = after.reverse ++ entry :: before.reverse := by
    have := congrArg reverse hsplit
    simpa using this
  have herase :
      (before ++ entry :: after).eraseP (fun entry => entry.target = target) = before ++ after := by
    rw [eraseP_append_right _ fun b hb => by simpa using hbefore b hb,
      eraseP_cons_of_pos (by simpa using htarget)]
  rw [dropLastMount, hsplit, herase, htable, reverse_append, find?_append, find?_append,
    find?_cons_of_neg (by simpa using hne)]

private theorem mem_dropLastMount (hmem : entry ∈ dropLastMount target table) : entry ∈ table := by
  rw [dropLastMount, mem_reverse] at hmem
  exact mem_reverse.mp (mem_of_mem_eraseP hmem)

end Table

/-! ## Calls -/

/-- What a process sees of a path: the node that it leads to, and the flags of its mount. -/
def Mounts.observe (m : Mounts) (p : MountProcess) (memory : Nat → Bool) (path : Name)
    (followFinal : Bool)
    (turns : Nat) : Except LookupError (Nat × Option UInt32) :=
  (m.tree.lookupInternal (m.view p) memory path followFinal).map fun x =>
    (x, (m.nodeMount turns x).map MountEntry.flags)

/-- The process sees the same: its overrides, the nodes that it can come to, and the entries for
    them. -/
structure Mounts.Keeps (m m' : Mounts) (p : MountProcess) : Prop where
  view : m'.view p = m.view p
  agree : m.tree.Agree m'.tree (m.view p)
  table : ∀ x, m.tree.Visible (m.view p) x → m'.mountRootedAt x = m.mountRootedAt x

section Keeps

variable {m m' m'' : Mounts} {kids : Nat → List Nat} {p : MountProcess} {x : Nat}

/-- A tree agrees with itself. -/
theorem Vfs.agree_refl (s : Vfs) (p : Process) : s.Agree s p :=
  ⟨fun _ _ => ⟨rfl, rfl, rfl, rfl, rfl, rfl, rfl⟩, fun _ _ => rfl⟩

private theorem Mounts.Keeps.nodeMount_eq (h : m.Keeps m' p) (turns : Nat)
    (hx : m.tree.Visible (m.view p) x) : m'.nodeMount turns x = m.nodeMount turns x := by
  induction turns generalizing x with
  | zero => rfl
  | succ turns ih =>
    rw [Mounts.nodeMount, Mounts.nodeMount, h.table x hx, h.table vfsRoot .root,
      (h.agree.same x hx).parent]
    split_ifs
    · rfl
    split
    · rfl
    split
    · next parent hparent => exact ih (.parent hx hparent)
    · rfl

private theorem Mounts.Keeps.observe_eq (h : m.Keeps m' p) (memory : Nat → Bool) (path : Name)
    (followFinal : Bool) (turns : Nat) :
    m'.observe p memory path followFinal turns = m.observe p memory path followFinal turns := by
  obtain ⟨heq, hvisible⟩ := h.agree.lookupInternal_eq memory path followFinal
  unfold Mounts.observe
  rw [h.view, heq]
  cases hlookup : m.tree.lookupInternal (m.view p) memory path followFinal with
  | error e => rfl
  | ok x =>
    rw [Except.map, Except.map, h.nodeMount_eq turns (hvisible x hlookup)]

end Keeps

/-- A call of `vfs_mount` or `vfs_umount`. -/
inductive MountCall
  | mount (input : MountInput) (source : Option Name) (target : Name)
      (type : MountType) (flags : UInt32)
  | umount (input : MountInput) (target : Name) (detach : Bool)

/-- The mounts after a call by a process. -/
def Mounts.step (first : MountProcess) (m : Mounts) (call : MountCall) : Option Mounts :=
  let result := match call with
    | .mount input source target type flags => m.mount first input source target type flags
    | .umount input target detach => m.umount first input target detach
  match result with
  | .ok m => some m
  | .error _ => some m

/-- A call of a process that another one does not notice. The process has a namespace of its own;
    the entry that is remounted or unmounted has a root that the other one cannot come to, and what
    is unmounted is an override of the process's own; and a tree that is bound cannot be come to
    either, or has an entry already. -/
def Mounts.Apart (first second : MountProcess) (m : Mounts) : MountCall → Prop
  | .mount input source target _ flags =>
    first.mntNs.isSome ∧
    (flags &&& vfsMsRemount ≠ 0 → ∀ entry,
      m.mountAt (m.tableTarget first input target) = some entry →
      ¬ m.tree.Visible (m.view second) entry.root) ∧
    (flags &&& vfsMsBind ≠ 0 → ∀ path ∈ source, ∀ root, m.lookup first input 4 path = some root →
      ¬ m.tree.Visible (m.view second) root ∨
        (m.mountRootedAt root).isSome ∧ m.tableTarget first input target ≠ ['/'])
  | .umount input target _ =>
    ∀ entry, m.lastMountAt (m.tableTarget first input target) = some entry →
      ¬ m.tree.Visible (m.view second) entry.root ∧
      ∀ place ∈ entry.mountpoint, (m.mntNsResolve first place).isSome

section Calls

variable {m m' : Mounts} {kids : Nat → List Nat} {first second : MountProcess} {input : MountInput}
  {target : Name} {flags : UInt32} {ns : Nat}

namespace Mounts

/-- What a step keeps: the order of the trees, and all that the other process sees. -/
structure Unnoticed (m m' : Mounts) (second : MountProcess) : Prop where
  wf : ∃ kids, m'.Wf kids
  keeps : m.Keeps m' second
  grows : m.tree.nextNode ≤ m'.tree.nextNode

private theorem Wf.lookup_small {site : Nat} {path : Name} {x : Nat} (hm : m.Wf kids)
    (hfirst : first.root < m.tree.nextNode) (hlookup : m.lookup first input site path = some x) :
    x < m.tree.nextNode := by
  have hok : m.tree.lookupInternal (m.view first) (input.spare site) path true = .ok x := by
    unfold lookup Vfs.lookup at hlookup
    cases hresult : m.tree.lookupInternal (m.view first) (input.spare site) path true with
    | error e => rw [hresult] at hlookup; cases hlookup
    | ok y => rw [hresult] at hlookup; rw [some.inj hlookup]
  exact hm.visible_small hfirst
    (((m.tree.agree_refl _).lookupInternal_eq (input.spare site) path true).2 x hok)

private theorem Wf.topMount_small (hm : m.Wf kids) (turns : Nat) {x : Nat}
    (hx : x < m.tree.nextNode) :
    m.tree.topMount turns x < m.tree.nextNode := by
  induction turns generalizing x with
  | zero => exact hx
  | succ turns ih =>
    rw [topMount]
    split
    · next root hmounted => exact ih (hm.pointers x hx root (.inr (.inr (.inl hmounted))))
    · exact hx

/-- The table only matters for the roots of its entries. -/
theorem Wf.withTable {table : List MountEntry} (hm : m.Wf kids)
    (hroots : ∀ entry ∈ table, entry.ownsRoot = true → ∀ d, entry.root ∉ kids d) :
    Wf { m with table } kids :=
  ⟨hm.listed, hm.parent, hm.small, hm.unused, hm.rootSmall, hm.pointers, hm.overrides, hroots⟩

private theorem Wf.remount (hm : m.Wf kids)
    (hhidden : ∀ entry, m.mountAt target = some entry →
      ¬ m.tree.Visible (m.view second) entry.root) :
    m.Unnoticed { m with table := setFlags target flags m.table } second := by
  refine ⟨⟨kids, hm.withTable fun entry hentry howns => ?_⟩,
    ⟨rfl, m.tree.agree_refl _, fun x hx => ?_⟩,
    Nat.le_refl _⟩
  · obtain ⟨old, hold, hroot, howns'⟩ := mem_setFlags hentry
    rw [hroot]
    exact hm.owned old hold (howns'.symm.trans howns)
  · exact find_setFlags fun entry hentry heq => hhidden entry hentry (heq ▸ hx)

/-- A root that is mounted is not seen in another namespace. -/
private theorem Wf.mountOver {place root : Nat} {ownsRoot : Bool} (hm : m.Wf kids)
    (hns : first.mntNs = some ns) (hapart : second.mntNs ≠ some ns)
    (hsecond : second.root < m.tree.nextNode)
    (hplace : place < m.tree.nextNode)
    (hroot : if ownsRoot then root = m.tree.nextNode else root < m.tree.nextNode ∧
      (¬ m.tree.Visible (m.view second) root ∨ (m.mountRootedAt root).isSome ∧ target ≠ ['/']))
    (hmount : m.mountOver first input target flags place root ownsRoot = .ok m') :
    m.Unnoticed m' second := by
  unfold Mounts.mountOver at hmount
  split at hmount
  · cases hmount
  dsimp only at hmount
  split at hmount
  · cases hmount
  next covered hcover =>
  obtain rfl := ok.inj hmount
  rw [cover, hns] at hcover
  -- the tree before the override: with the new root, or as it was
  have hbefore : Wf { m with tree := if ownsRoot then m.tree.addRoot place else m.tree } kids ∧
      m.tree.Agree (if ownsRoot then m.tree.addRoot place else m.tree) (m.view second) ∧
      m.tree.nextNode ≤ (if ownsRoot then m.tree.addRoot place else m.tree).nextNode ∧
      root < (if ownsRoot then m.tree.addRoot place else m.tree).nextNode := by
    split_ifs at hroot ⊢ with howns
    · refine ⟨hm.addRoot hplace, hm.agree_addRoot hsecond hplace, Nat.le_succ _, ?_⟩
      rw [hroot]
      exact Nat.lt_succ_self _
    · exact ⟨hm, m.tree.agree_refl _, Nat.le_refl _, hroot.1⟩
  obtain ⟨hwf, hagree, hle, hsmall⟩ := hbefore
  obtain ⟨hwf', htree, htable, hview⟩ := hwf.putOverride
    ⟨Nat.lt_of_lt_of_le hplace hle, fun r hr => by cases hr; exact hsmall⟩ hcover
  have hroots : ∀ entry ∈ mountInsert
      { target := target.take (vfsPathMax - 1), flags, mountpoint := some place, root, ownsRoot }
      covered.table, entry.ownsRoot = true → ∀ d, entry.root ∉ kids d := by
    intro entry hentry howns d
    rcases mem_mountInsert hentry with rfl | hentry
    · -- a root of its own is new
      intro hmem
      change ownsRoot = true at howns
      rw [if_pos howns] at hroot
      exact Nat.lt_irrefl _ (hroot ▸ hm.small d root hmem)
    · rw [htable] at hentry
      exact hm.owned entry hentry howns d
  refine ⟨⟨kids, hwf'.withTable hroots⟩,
    ⟨hview second hapart, by rw [htree]; exact hagree, fun x hx => ?_⟩,
    by rw [htree]; exact hle⟩
  rw [htable]
  refine find_mountInsert ?_
  split_ifs at hroot with howns
  · exact .inl fun heq => Nat.ne_of_lt (hm.visible_small hsecond hx) (heq ▸ hroot)
  rcases hroot.2 with hhidden | ⟨hsome, htarget⟩
  · exact .inl fun (heq : root = x) => hhidden (heq ▸ hx)
  by_cases heq : root = x
  · refine .inr ⟨fun htake => htarget ?_, heq ▸ hsome⟩
    -- a text that is cut to one character had only one
    have hlength := congrArg length htake
    rw [length_take] at hlength
    rw [← htake, take_of_length_le]
    simp only [vfsPathMax, length_singleton] at hlength ⊢
    omega
  · exact .inl heq

end Mounts

/-- The root of a file system that found its source. -/
theorem eq_of_source_map {source : Except MountError Unit} {x root : Nat} {ownsRoot : Bool}
    (h : (source.map fun _ => (x, true)) = .ok (root, ownsRoot)) : root = x ∧ ownsRoot = true := by
  cases source with
  | error e => cases h
  | ok _ =>
    obtain ⟨rfl, rfl⟩ := Prod.mk.inj (ok.inj h)
    exact ⟨rfl, rfl⟩

namespace Mounts

/-- `vfs_mount` is not seen in another namespace. -/
private theorem Wf.mount {source : Option Name} {type : MountType} (hm : m.Wf kids)
    (hns : first.mntNs = some ns) (hapart : second.mntNs ≠ some ns)
    (hfirst : first.root < m.tree.nextNode)
    (hsecond : second.root < m.tree.nextNode)
    (hcond : Apart first second m (.mount input source target type flags))
    (hmount : m.mount first input source target type flags = .ok m') : m.Unnoticed m' second := by
  obtain ⟨-, hremount, hbind⟩ := hcond
  unfold Mounts.mount at hmount
  dsimp only at hmount
  split at hmount
  · cases hmount
  split at hmount
  · cases hmount
  have hbits : ∀ bit : UInt32, bit &&& ~~~vfsMsIgnored = bit →
      flags &&& ~~~vfsMsIgnored &&& bit = flags &&& bit := by
    intro bit hbit
    rw [UInt32.and_assoc, UInt32.and_comm (~~~vfsMsIgnored), hbit]
  split at hmount
  · next hflag =>
    split at hmount
    · cases hmount
    · obtain rfl := ok.inj hmount
      exact hm.remount (hremount (by rwa [hbits _ (by decide)] at hflag))
  · split at hmount
    · cases hmount
    split at hmount
    · cases hmount
    next place hplace =>
    have hsmall := hm.lookup_small hfirst hplace
    split at hmount
    · cases hmount
    split at hmount
    · cases hmount
    split at hmount
    · cases hmount
    next root ownsRoot hroot =>
    refine hm.mountOver hns hapart hsecond (hm.topMount_small _ hsmall) ?_ hmount
    unfold mountRoot at hroot
    rw [hbits _ (by decide)] at hroot
    split at hroot
    · next hflag =>
      -- a bind mount: the source has been looked up
      split at hroot
      · split at hroot
        · cases hroot
        next bound hbound =>
        split_ifs at hroot
        obtain ⟨rfl, rfl⟩ := Prod.mk.inj (ok.inj hroot)
        exact ⟨hm.lookup_small hfirst hbound, hbind hflag _ rfl _ hbound⟩
      · cases hroot
    · -- a new file system
      split at hroot
      · split_ifs at hroot
        obtain ⟨rfl, rfl⟩ := Prod.mk.inj (ok.inj hroot)
        rfl
      · obtain ⟨rfl, rfl⟩ := eq_of_source_map hroot
        rfl
      · obtain ⟨rfl, rfl⟩ := eq_of_source_map hroot
        rfl
      · obtain ⟨rfl, rfl⟩ := eq_of_source_map hroot
        rfl
      · cases hroot
      · cases hroot

/-- What an unmount that succeeds has found, and what it leaves. -/
theorem umount_eq_ok {detach : Bool} (humount : m.umount first input target detach = .ok m') :
    ∃ entry place, m.lastMountAt (m.tableTarget first input target) = some entry ∧
      entry.mountpoint = some place ∧ ∃ free : Bool, (free = true → entry.ownsRoot = true) ∧
      m' = { m.uncover first input place with
        table := dropLastMount (m.tableTarget first input target)
          (m.uncover first input place).table
        tree := if free then (m.uncover first input place).tree.freeTree entry.root
          else (m.uncover first input place).tree } := by
  unfold Mounts.umount at humount
  dsimp only at humount
  split at humount
  · cases humount
  next entry hentry =>
  split at humount
  · cases humount
  next place hplace =>
  split_ifs at humount with _ _ hfree
  · exact ⟨entry, place, hentry, hplace, true, fun _ => hfree.1, (ok.inj humount).symm⟩
  · exact ⟨entry, place, hentry, hplace, false, nofun, (ok.inj humount).symm⟩

/-- Masking an override of the process's own changes nothing for the others. -/
theorem Wf.uncover {place : Nat} (hm : m.Wf kids) (hns : first.mntNs = some ns)
    (hplaced : (m.mntNsResolve first place).isSome) :
    (m.uncover first input place).Wf kids ∧ (m.uncover first input place).tree = m.tree ∧
      (m.uncover first input place).table = m.table ∧
      ∀ p : MountProcess, p.mntNs ≠ some ns → (m.uncover first input place).view p = m.view p := by
  have huncover : m.uncover first input place = (m.mntNsRemove input.override ns place).getD m := by
    rw [Mounts.uncover, hns]
    dsimp only
    rw [if_pos hplaced]
  rw [huncover]
  cases hremove : m.mntNsRemove input.override ns place with
  | none => exact ⟨hm, rfl, rfl, fun _ _ => rfl⟩
  | some masked =>
    have hsmall : place < m.tree.nextNode := by
      obtain ⟨root, hroot⟩ := isSome_iff_exists.mp hplaced
      rw [mntNsResolve, hns, bind_some, resolveIn] at hroot
      obtain ⟨o, ho, -⟩ := map_eq_some_iff.mp hroot
      have heq : o.place = place := by simpa using find?_some ho
      exact heq ▸ (hm.overrides ns o (mem_of_find?_eq_some ho)).1
    exact hm.putOverride (o := { place, root := none }) ⟨hsmall, nofun⟩ hremove

private theorem Wf.umount {detach : Bool} (hm : m.Wf kids) (hns : first.mntNs = some ns)
    (hapart : second.mntNs ≠ some ns) (hcond : Apart first second m (.umount input target detach))
    (humount : m.umount first input target detach = .ok m') : m.Unnoticed m' second := by
  obtain ⟨entry, place, hentry, hplace, free, hfree, rfl⟩ := umount_eq_ok humount
  obtain ⟨hhidden, hover⟩ := hcond entry hentry
  obtain ⟨hwf, htree, htable, hview⟩ := @Wf.uncover _ _ _ input _ _ hm hns (hover place hplace)
  have hdrop : ∀ x, m.tree.Visible (m.view second) x →
      (dropLastMount (m.tableTarget first input target) m.table).find? (fun e => e.root = x) =
        m.mountRootedAt x := fun x hx =>
    find_dropLastMount hentry fun heq => hhidden (heq ▸ hx)
  rw [htree, htable]
  cases free with
  | true =>
    have howned := hm.owned entry (mem_reverse.mp (mem_of_find?_eq_some hentry)) (hfree rfl)
    obtain ⟨kids', hfreed, -⟩ := hwf.freeTree howned
    rw [htree] at hfreed
    exact ⟨⟨kids', hfreed.withTable fun other hother =>
      hfreed.owned other (htable ▸ mem_dropLastMount hother)⟩,
      ⟨hview second hapart, hm.agree_freeTree howned hhidden, hdrop⟩,
      Nat.le_of_eq (m.tree.foldl_freeNode _).1.symm⟩
  | false =>
    refine ⟨⟨kids, ?_⟩, ⟨hview second hapart, m.tree.agree_refl _, hdrop⟩, Nat.le_refl _⟩
    exact htree ▸ hwf.withTable fun other hother => hm.owned other (mem_dropLastMount hother)

private theorem Wf.step {call : MountCall} (hm : m.Wf kids) (hns : first.mntNs ≠ second.mntNs)
    (hfirst : first.root < m.tree.nextNode) (hsecond : second.root < m.tree.nextNode)
    (hcond : Apart first second m call) (hstep : step first m call = some m') :
    m.Unnoticed m' second := by
  have hself : m.Unnoticed m second :=
    ⟨⟨kids, hm⟩, ⟨rfl, m.tree.agree_refl _, fun _ _ => rfl⟩, Nat.le_refl _⟩
  unfold Mounts.step at hstep
  dsimp only at hstep
  split at hstep
  · next result hresult =>
    obtain rfl := some.inj hstep
    cases call with
    | mount input source target type flags =>
      obtain ⟨ns, hsome⟩ := isSome_iff_exists.mp hcond.1
      exact hm.mount hsome (fun heq => hns (hsome.trans heq.symm)) hfirst hsecond hcond hresult
    | umount input target detach =>
      cases hsome : first.mntNs with
      | some ns => exact hm.umount hsome (fun heq => hns (hsome.trans heq.symm)) hcond hresult
      | none =>
        -- without a namespace there is no override to unmount
        obtain ⟨entry, place, hentry, hplace, -⟩ := umount_eq_ok hresult
        have hover := (hcond entry hentry).2 place hplace
        rw [mntNsResolve, hsome] at hover
        cases hover
  · exact some.inj hstep ▸ hself

/-- Under the condition, whatever the first process mounts and unmounts, the second one finds the
    same nodes under all paths, with the same flags of their mounts. -/
theorem observe_of_run {calls : List MountCall} (hm : m.Wf kids) (hns : first.mntNs ≠ second.mntNs)
    (hfirst : first.root < m.tree.nextNode) (hsecond : second.root < m.tree.nextNode)
    (hapart : Always (step first) (Apart first second) m calls)
    (hrun : run (step first) m calls = some m') (memory : Nat → Bool) (path : Name)
    (followFinal : Bool) (turns : Nat) :
    m'.observe second memory path followFinal turns =
      m.observe second memory path followFinal turns := by
  have hkeep : ∀ (n : Mounts) (call : MountCall) (n' : Mounts),
      ((∃ kids, n.Wf kids) ∧ m.tree.nextNode ≤ n.tree.nextNode ∧
        n.observe second memory path followFinal turns =
          m.observe second memory path followFinal turns) →
      Apart first second n call → step first n call = some n' →
      (∃ kids, n'.Wf kids) ∧ m.tree.nextNode ≤ n'.tree.nextNode ∧
        n'.observe second memory path followFinal turns =
          m.observe second memory path followFinal turns := by
    rintro n call n' ⟨⟨kids, hn⟩, hle, hsame⟩ hcond hstep
    have hunnoticed :=
      hn.step hns (Nat.lt_of_lt_of_le hfirst hle) (Nat.lt_of_lt_of_le hsecond hle) hcond hstep
    exact ⟨hunnoticed.wf, Nat.le_trans hle hunnoticed.grows,
      (hunnoticed.keeps.observe_eq ..).trans hsame⟩
  exact (run_invariant hkeep ⟨⟨kids, hm⟩, Nat.le_refl _, rfl⟩ hapart hrun).2.2

end Mounts

/-- A tree without mounts is in order. -/
theorem Vfs.Shape.mounts_wf {s : Vfs} (hs : s.Shape none kids) :
    Mounts.Wf { tree := s, table := [], overrides := fun _ => [] } kids := by
  refine ⟨hs.listed, fun d x hx => (hs.rooted.kids_parent hx).1, fun d x hx => hs.kids_small hx,
    fun d hd => ?_, hs.sorted.rootSmall, fun x hx y hy => ?_, fun ns o ho => absurd ho not_mem_nil,
    fun entry hentry => absurd hentry not_mem_nil⟩
  · refine hs.rooted.childless d ?_ (not_mem_none d)
    by_contra hne
    exact Nat.not_lt_of_le hd (hs.sorted.small d (isSome_iff_ne_none.mpr hne))
  · rcases hy with hy | hy | hy | ⟨index, b, hindex, hy⟩
    · exact hs.sorted.small y (hs.parent_inside hy)
    · exact (hs.sorted.link x y hy).1
    · rw [hs.sorted.mounted] at hy
      cases hy
    · exact hs.kids_small (((hs.named.index x index hindex).mem b y).mp hy).1

/-- A tree with the directory `/m`, and no mounts. -/
def plainMounts : Mounts :=
  { tree := (vfsInit.createDirectory { root := vfsRoot, resolve := fun _ => none }
    (fun _ => true) ['/', 'm']).2
    table := []
    overrides := fun _ => [] }

/-- A `tmpfs` on `/m`. -/
def mountCall : MountCall :=
  .mount { buffer := fun _ => true, spare := fun _ _ => true, node := true, entry := true
           override := true, source := .ok (), mapped := fun _ => false, cgroupBusy := false }
    none ['/', 'm'] .tmpfs vfsMsRdonly

/-- A process of a namespace, with the root of the system. -/
def nsProcess (mntNs : Option Nat) : MountProcess := { root := vfsRoot, mntNs }

/-- What a process of a namespace finds at `/m`. -/
def Mounts.atM (m : Mounts) (mntNs : Option Nat) : Option (Nat × Option UInt32) :=
  (m.observe (nsProcess mntNs) (fun _ => true) ['/', 'm'] true 9).toOption

private theorem plainMounts_wf : ∃ kids, plainMounts.Wf kids := by
  have hgrown : Grown (vfsInit.createDirectory { root := vfsRoot, resolve := fun _ => none }
      (fun _ => true) ['/', 'm']) :=
    vfsInit_shape.grown_createIn (fun _ => rfl) ⟨fun _ => rfl, fun _ => rfl⟩
      fun name => newNode_fresh vfsInit name .directory
  obtain ⟨⟨kids, hs⟩, -⟩ := hgrown
  exact ⟨kids, hs.mounts_wf⟩

/-- A mount in a namespace of its own is not there for a process of the first one. -/
theorem mountCall_unseen :
    ∃ m', run (Mounts.step (nsProcess (some 1))) plainMounts [mountCall] = some m' ∧
    m'.atM (some 1) = some (2, some vfsMsRdonly) ∧
    ∀ memory path followFinal turns, m'.observe (nsProcess none) memory path followFinal turns =
      plainMounts.observe (nsProcess none) memory path followFinal turns := by
  have hrun : ∃ m', run (Mounts.step (nsProcess (some 1))) plainMounts [mountCall] = some m' ∧
      m'.atM (some 1) = some (2, some vfsMsRdonly) := ⟨_, rfl, by decide +kernel⟩
  obtain ⟨m', hrun, hseen⟩ := hrun
  obtain ⟨kids, hwf⟩ := plainMounts_wf
  have hapart :
      Always (Mounts.step (nsProcess (some 1))) (Mounts.Apart (nsProcess (some 1)) (nsProcess none))
      plainMounts [mountCall] :=
    ⟨⟨rfl, fun hflag => absurd rfl hflag, fun hflag => absurd rfl hflag⟩, fun _ _ => trivial⟩
  exact ⟨m', hrun, hseen,
    Mounts.observe_of_run hwf (by decide) (by decide +kernel) (by decide +kernel) hapart hrun⟩

/-- A mount in the first namespace is there for a process of another one. -/
theorem mountCall_seen :
    ∃ m', run (Mounts.step (nsProcess none)) plainMounts [mountCall] = some m' ∧
    plainMounts.atM (some 1) = some (1, none) ∧
    m'.atM (some 1) = some (2, some vfsMsRdonly) :=
  ⟨_, rfl, by decide +kernel, by decide +kernel⟩

end Calls

end Tunix.Fs
