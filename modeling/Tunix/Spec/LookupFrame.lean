import Tunix.Kernel.Mount
import Tunix.Spec.VfsCalls

/-!
# What a lookup depends on

A lookup of a process only reads the nodes that its paths can lead to: from the root, down the lists
of children, along links, mounts and overrides, and up the parent pointers (`Vfs.Visible`). Two
trees that are the same there give the same result for every path (`Vfs.Agree.lookupInternal_eq`).
-/

namespace Tunix.Fs

open Vfs

/-- The nodes that the lookups of a process can come to. -/
inductive Vfs.Visible (s : Vfs) (p : Process) : Nat → Prop
  | root : Visible s p vfsRoot
  | processRoot : Visible s p p.root
  | child {d x : Nat} (hd : Visible s p d) (hx : x ∈ s.childList d) : Visible s p x
  | indexed {d x b : Nat} {index : ChildIndex} (hd : Visible s p d)
      (hindex : (s.node d).childIndex = some index) (hx : x ∈ index.slot b) : Visible s p x
  | link {x target : Nat} (hx : Visible s p x) (hlink : (s.node x).linkTarget = some target) :
      Visible s p target
  | parent {x d : Nat} (hx : Visible s p x) (hparent : (s.node x).parent = some d) : Visible s p d
  | mounted {x root : Nat} (hx : Visible s p x) (hmounted : (s.node x).mounted = some root) :
      Visible s p root
  | covered {x root : Nat} (hx : Visible s p x) (hover : p.resolve x = some root) : Visible s p root

/-- The fields of a node that a lookup reads. -/
structure VfsNode.Same (a b : VfsNode) : Prop where
  name : b.name = a.name
  kind : b.kind = a.kind
  parent : b.parent = a.parent
  childIndex : b.childIndex = a.childIndex
  linkTarget : b.linkTarget = a.linkTarget
  mounted : b.mounted = a.mounted
  data : b.data = a.data

/-- The trees are the same where the process can see. -/
structure Vfs.Agree (s s' : Vfs) (p : Process) : Prop where
  same : ∀ x, s.Visible p x → (s.node x).Same (s'.node x)
  children : ∀ d, s.Visible p d → s'.childList d = s.childList d

section Agree

variable {s s' : Vfs} {p : Process} {x d : Nat} {name : Name}

/-! ## Finding a name -/

/-- Searching a list of nodes for a name only reads their names. -/
theorem find_name_congr {xs : List Nat} (hnames : ∀ x ∈ xs, (s'.node x).name = (s.node x).name)
    (name : Name) :
    (xs.find? fun x => (s'.node x).name = name) = xs.find? fun x => (s.node x).name = name := by
  induction xs with
  | nil => rfl
  | cons x xs ih =>
    have hx := hnames x List.mem_cons_self
    rw [List.find?_cons, List.find?_cons, hx, ih fun y hy => hnames y (List.mem_cons_of_mem x hy)]

private theorem Vfs.Agree.findEntry_eq (h : s.Agree s' p) (hd : s.Visible p d) (name : Name) :
    s'.findEntry d name = s.findEntry d name := by
  have hsame := h.same d hd
  unfold findEntry
  dsimp only
  rw [hsame.kind, hsame.childIndex]
  split
  · rfl
  split
  · next index hindex =>
    exact find_name_congr (fun x hx => (h.same x (.indexed hd hindex hx)).name) name
  · rw [h.children d hd]
    exact find_name_congr (fun x hx => (h.same x (.child hd hx)).name) name

private theorem Vfs.visible_findEntry (hd : s.Visible p d) (hfind : s.findEntry d name = some x) :
    s.Visible p x := by
  unfold findEntry at hfind
  dsimp only at hfind
  split at hfind
  · cases hfind
  split at hfind
  · next index hindex => exact .indexed hd hindex (List.mem_of_find?_eq_some hfind)
  · exact .child hd (List.mem_of_find?_eq_some hfind)

section

variable (h : s.Agree s' p)

include h

private theorem Vfs.Agree.crossMounts_eq (depth : Nat) (hx : s.Visible p x) :
    s'.crossMounts p depth x = s.crossMounts p depth x ∧ s.Visible p (s.crossMounts p depth x) := by
  induction depth generalizing x with
  | zero => exact ⟨rfl, hx⟩
  | succ depth ih =>
    rw [crossMounts, crossMounts, (h.same x hx).mounted]
    split
    · next cover hover =>
      split_ifs
      · exact ⟨rfl, hx⟩
      · exact ih (.covered hx hover)
    · split
      · next root hmounted => exact ih (.mounted hx hmounted)
      · exact ⟨rfl, hx⟩

private theorem Vfs.Agree.findChild_eq (hd : s.Visible p d) (name : Name) :
    s'.findChild p d name = s.findChild p d name ∧
      ∀ x ∈ s.findChild p d name, s.Visible p x := by
  unfold findChild
  rw [h.findEntry_eq hd]
  cases hentry : s.findEntry d name with
  | none => exact ⟨rfl, nofun⟩
  | some entry =>
    have hvisible := visible_findEntry hd hentry
    have hbody : s.Visible p ((s.node entry).linkTarget.getD entry) := by
      cases hlink : (s.node entry).linkTarget with
      | none => exact hvisible
      | some target => exact .link hvisible hlink
    obtain ⟨heq, hcross⟩ := h.crossMounts_eq vfsMountMaxDepth hbody
    rw [Option.map_some, Option.map_some, (h.same entry hvisible).linkTarget, heq]
    exact ⟨rfl, fun x hx => Option.some.inj hx ▸ hcross⟩

/-! ## Walking -/

private theorem Vfs.Agree.dotDot_eq (hx : s.Visible p x) :
    s'.dotDot p x = s.dotDot p x ∧ s.Visible p (s.dotDot p x) := by
  unfold dotDot
  rw [(h.same x hx).parent]
  refine ⟨rfl, ?_⟩
  split_ifs
  · exact hx
  cases hparent : (s.node x).parent with
  | none => exact hx
  | some d => exact .parent hx hparent

private theorem Vfs.Agree.enter_eq (hx : s.Visible p x) (followFinal : Bool) (component rest : Name)
    (required : Bool) :
    s'.enter p followFinal x component rest required =
      s.enter p followFinal x component rest required := by
  obtain ⟨heq, hvisible⟩ := h.findChild_eq hx component
  unfold enter
  rw [heq]
  cases hfind : s.findChild p x component with
  | none => rfl
  | some next =>
    have hsame := h.same next (hvisible next hfind)
    dsimp only
    rw [hsame.kind, hsame.data]

private theorem Vfs.Agree.walkStep_eq (hx : s.Visible p x) (followFinal : Bool) (cursor : Name)
    (required : Bool) :
    s'.walkStep p followFinal x cursor required = s.walkStep p followFinal x cursor required := by
  unfold walkStep
  rw [(h.same x hx).kind, (h.dotDot_eq hx).1]
  simp only [h.enter_eq hx]

/-- A turn leads from a visible node to a visible node. -/
theorem Vfs.Agree.visible_go {cursor rest : Name} {next : Nat} {required : Bool}
    (hx : s.Visible p x) (hturn : s.Turn p x cursor (.go next rest required)) :
    s.Visible p next := by
  cases hturn with
  | skip => exact hx
  | up => exact (h.dotDot_eq hx).2
  | down _ _ component _ _ _ hfind => exact (h.findChild_eq hx component).2 next hfind

/-- A walk that sees the same nodes comes to the same end. -/
private theorem Vfs.Agree.walk_eq (followFinal : Bool) (turns : Nat)
    (hx : s.Visible p x) (cursor : Name)
    (required : Bool) :
    s'.walk p followFinal turns x cursor required = s.walk p followFinal turns x cursor required ∧
      (∀ y required',
        s.walk p followFinal turns x cursor required = .node y required' → s.Visible p y) ∧
      ∀ directory target rest required',
        s.walk p followFinal turns x cursor required = .link directory target rest required' →
        s.Visible p directory := by
  induction turns generalizing x cursor required with
  | zero =>
    cases cursor <;>
      exact ⟨rfl, fun y _ heq => by cases heq; exact hx, fun _ _ _ _ heq => by cases heq⟩
  | succ turns ih =>
    cases cursor with
    | nil => exact ⟨rfl, fun y _ heq => by cases heq; exact hx, fun _ _ _ _ heq => by cases heq⟩
    | cons c cursor =>
      have hturn := s.walkStep_turn p followFinal x (c :: cursor) required
      have hstep := h.walkStep_eq hx followFinal (c :: cursor) required
      simp only [walk]
      rw [hstep]
      cases hresult : s.walkStep p followFinal x (c :: cursor) required with
      | stop walkEnd =>
        -- a turn that stops fails, or has come to a link
        rw [hresult] at hturn
        cases hturn with
        | failed error =>
          exact ⟨rfl, fun _ _ heq => (by cases heq), fun _ _ _ _ heq => by cases heq⟩
        | link => exact ⟨rfl, fun _ _ heq => (by cases heq),
            fun directory _ _ _ heq => by cases heq; exact hx⟩
      | go next rest required' =>
        rw [hresult] at hturn
        exact ih (h.visible_go hx hturn) rest required'

/-! ## Paths and lookups -/

private theorem Vfs.Agree.pathText_eq (turns : Nat) (hx : s.Visible p x) (text : Name) :
    s'.pathText turns x text = s.pathText turns x text := by
  induction turns generalizing x text with
  | zero => rfl
  | succ turns ih =>
    rw [pathText, pathText, (h.same x hx).name, (h.same x hx).parent]
    dsimp only
    split_ifs
    · rfl
    · rfl
    split
    · next parent hparent => exact ih (.parent hx hparent) _
    · rfl

private theorem Vfs.Agree.nodePath_eq (hx : s.Visible p x) : s'.nodePath x = s.nodePath x := by
  unfold nodePath
  rw [h.pathText_eq vfsPathMax hx]

private theorem Vfs.Agree.symlinkPath_eq (hd : s.Visible p d) (target rest : Name) :
    s'.symlinkPath p d target rest = s.symlinkPath p d target rest := by
  unfold symlinkPath symlinkBase
  rw [h.nodePath_eq hd, h.nodePath_eq .processRoot]

private theorem Vfs.Agree.follow_eq (memory : Nat → Bool) (followFinal : Bool)
    (links : Nat) (path : Name)
    (required : Bool) :
    s'.follow p memory followFinal links path required =
      s.follow p memory followFinal links path required ∧
      ∀ x, s.follow p memory followFinal links path required = .ok x → s.Visible p x := by
  induction links using Nat.strongRecOn generalizing path required with
  | _ links ih =>
    obtain ⟨hstart, hvisible⟩ := h.crossMounts_eq vfsMountMaxDepth Visible.root
    obtain ⟨hwalk, hnode, hlink⟩ := h.walk_eq followFinal path.length hvisible path required
    rw [follow, follow, hstart, hwalk]
    split
    · exact ⟨rfl, fun _ heq => by cases heq⟩
    · next y required' hend =>
      have hy := hnode y required' hend
      rw [(h.same y hy).kind]
      refine ⟨rfl, fun x heq => ?_⟩
      split_ifs at heq
      exact Except.ok.inj heq ▸ hy
    · next directory target rest required' hend =>
      cases links with
      | zero => exact ⟨rfl, fun _ heq => by cases heq⟩
      | succ links =>
        dsimp only
        rw [h.symlinkPath_eq (hlink _ _ _ _ hend)]
        split_ifs
        · exact ⟨rfl, fun _ heq => by cases heq⟩
        split
        · exact ⟨rfl, fun _ heq => by cases heq⟩
        · next path' _ => exact ih links (Nat.lt_succ_self links) path' required'

/-- The same path leads to the same node, and to one that is visible. -/
theorem Vfs.Agree.lookupInternal_eq (memory : Nat → Bool) (path : Name) (followFinal : Bool) :
    s'.lookupInternal p memory path followFinal = s.lookupInternal p memory path followFinal ∧
      ∀ x, s.lookupInternal p memory path followFinal = .ok x → s.Visible p x := by
  unfold lookupInternal
  split_ifs
  · exact ⟨rfl, nofun⟩
  · exact h.follow_eq memory followFinal vfsSymlinkMaxDepth path false

end

end Agree

end Tunix.Fs
