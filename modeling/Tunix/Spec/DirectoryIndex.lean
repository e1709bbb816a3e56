import Tunix.Spec.VfsRuns

/-!
# Indexes of directories

`agrees_of_run`: a lookup in a directory finds the entry of its list that has the name, while there
is memory for the indexes. When there is none for a larger index the old one stays, and the new
entry is not found.
-/

namespace Tunix.Fs

open Steps Vfs

/-- What is found in a directory is the entry of its list that has the name. -/
def Vfs.Agrees (s : Vfs) : Prop := ∀ d name x, (s.node d).kind = .directory →
    (s.findEntry d name = some x ↔ x ∈ s.childList d ∧ (s.node x).name = name)

private theorem Vfs.Shape.agrees {s : Vfs} {kids : Nat → List Nat}
    (hs : s.Shape none kids) : s.Agrees := by
  intro d name x hd
  rw [hs.listed.childList_eq fun _ => hs.kids_small]
  constructor
  · exact hs.mem_of_findEntry
  · rintro ⟨hx, rfl⟩
    cases hfind : s.findEntry d (s.node x).name with
    | none => exact absurd rfl ((hs.findEntry_none hd).mp hfind x hx)
    | some y =>
      obtain ⟨hy, hname⟩ := hs.mem_of_findEntry hfind
      by_contra hne
      exact hs.name_ne hy hx (fun h => hne (congrArg some h)) hname

/-- The entries are counted, only directories have any, and no hard link leads to a directory. -/
def Vfs.Entered (s : Vfs) : Prop := ∀ d, (s.node d).childCount = (s.childList d).length ∧
    (s.childList d ≠ [] → (s.node d).kind = .directory) ∧
    ∀ target, (s.node d).linkTarget = some target → (s.node target).kind ≠ .directory

section

variable {s t : Vfs} {kids : Nat → List Nat} {calls : List VfsCall} (hs : s.Shape none kids)
  (hallowed : Always Vfs.step Vfs.Allowed s calls) (hrun : run Vfs.step s calls = some t)
include hs hallowed hrun

/-- After any calls under the condition, on any tree, the index of each directory agrees with its
    list. -/
theorem Vfs.agrees_of_run : t.Agrees := by
  obtain ⟨kids, ht⟩ := hs.of_run hallowed hrun
  exact ht.agrees

/-- After any calls each node has been entered where it says. -/
theorem Vfs.entered_of_run : t.Entered := by
  intro d
  obtain ⟨kids, ht⟩ := hs.of_run hallowed hrun
  rw [ht.listed.childList_eq fun _ => ht.kids_small]
  exact ⟨ht.listed.count d, ht.sorted.directory d, fun target h => (ht.sorted.link d target h).2⟩

/-- No path leads to a directory that is not in the tree any more. -/
theorem Vfs.climbs_of_lookup {call : VfsCall} {memory : Nat → Bool} {path : Name} {x : Nat}
    (hlookup : t.lookup call.process memory path = some x) (hkind : (t.node x).kind = .directory) :
    ParentChain.Climbs t.parent x vfsRoot := by
  obtain ⟨kids, ht⟩ := hs.of_run hallowed hrun
  exact ht.climbs_root ((ht.reached_lookup (fun _ => rfl) hlookup).inside hkind)

end

/-- Three files, a directory with a hard link to the first one, and the second one removed. -/
def fillCalls : List VfsCall :=
  [.attach ['/'] ['a'] .file, .attach ['/'] ['b'] .file, .attach ['/'] ['c'] .file,
    .createDirectory ['/', 'd'],
    .link ['/', 'a'] true ['/', 'd', '/', 'l'], .remove ['/', 'b'] false].map plainCall

/-- A file then moves from the root into the directory. -/
def fileCalls : List VfsCall := fillCalls ++ [plainCall (.rename ['/', 'c'] ['/', 'd', '/', 'm'])]

private theorem fileCalls_allowed : Always Vfs.step Vfs.Allowed vfsInit fileCalls := by
  have hindexes op : (plainCall op).memory.Indexes := ⟨fun _ => rfl, fun _ => rfl⟩
  refine Always.append (Always.of_forall (fun call hcall s => ?_) _) fun t ht =>
    ⟨⟨hindexes _, ?_⟩, fun _ _ => trivial⟩
  · obtain ⟨op, hop, rfl⟩ := List.mem_map.mp hcall
    refine ⟨hindexes op, fun oldPath newPath h => ?_⟩
    have hplain : op ≠ .rename oldPath newPath := by
      rintro rfl
      simp at hop
    exact absurd h hplain
  · intro oldPath newPath hop oldParent oldName newParent newName x hold hnew hentry
    cases hop
    -- the file is node 3 in the root, and goes to the directory 4, whose parent is the root
    have hfacts : ∀ s ∈ run Vfs.step vfsInit fillCalls,
        s.parentOf (plainCall (.createFifo [])).process (fun _ => true) 0 ['/', 'c'] =
          some (0, ['c']) ∧
        s.parentOf (plainCall (.createFifo [])).process (fun _ => true) 1 ['/', 'd', '/', 'm'] =
          some (4, ['m']) ∧
        s.findEntry 0 ['c'] = some 3 ∧ s.parent 4 = some 0 ∧
          s.parent 0 = some 0 := by decide +kernel
    obtain ⟨hold', hnew', hentry', hparent, hroot⟩ := hfacts t ht
    cases hold.symm.trans hold'
    cases hnew.symm.trans hnew'
    cases hentry.symm.trans hentry'
    exact Vfs.not_climbs_below_root hparent hroot (by decide) (by decide)

/-- Files, a directory, a link, a removal and a rename: the index agrees with the lists. -/
theorem fileCalls_agree : ∃ s, run Vfs.step vfsInit fileCalls = some s ∧ s.Agrees :=
  ⟨_, rfl, agrees_of_run vfsInit_shape fileCalls_allowed rfl⟩

/-- And every node is entered in its directory. -/
theorem fileCalls_entered : ∃ s, run Vfs.step vfsInit fileCalls = some s ∧ s.Entered :=
  ⟨_, rfl, entered_of_run vfsInit_shape fileCalls_allowed rfl⟩

/-- And the directory is below the root. -/
theorem fileCalls_climb :
    ∃ s, run Vfs.step vfsInit fileCalls = some s ∧ ParentChain.Climbs s.parent 4 vfsRoot := by
  refine ⟨_, rfl, climbs_of_lookup vfsInit_shape fileCalls_allowed rfl (?_ : lookup _
    (plainCall (.createFifo [])).process (fun _ => true) ['/', 'd'] = _) ?_⟩ <;> decide +kernel

end Tunix.Fs
