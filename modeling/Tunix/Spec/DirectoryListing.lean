import Mathlib.Data.List.Nodup
import Tunix.ForStd.Run
import Tunix.Kernel.Readdir

/-!
# A listing returns every entry once

The position of a listing is the number of entries returned, so an entry that leaves the directory
after it was returned moves the others under the position, and one of them is skipped. As long as
none does, what was returned are the first entries of the directory (`Listing.Lists`): new entries
come last, and the cursor only saves a walk (`Directory.Wf.seek_eq`). The main result is
`listing_complete`.
-/

namespace Tunix.Fs

open List Steps

variable {d : Directory} {s t : Listing}

/-! ## The cursor -/

/-- A node is a child once, and the cursor is on the child at its index. -/
structure Directory.Wf (d : Directory) : Prop where
  nodes : (d.children.map Child.node).Nodup
  cursor : ∀ node index, d.cursor = some (node, index) →
    (d.children[index]?).map Child.node = some node

/-- The list from a node on begins at its index. -/
theorem dropWhile_node {l : List Child} (hl : (l.map Child.node).Nodup) {i node : Nat}
    (hi : (l[i]?).map Child.node = some node) : l.dropWhile (·.node ≠ node) = l.drop i := by
  induction l generalizing i with
  | nil => simp at hi
  | cons c rest ih =>
    obtain ⟨hnew, hrest⟩ := nodup_cons.mp hl
    cases i with
    | zero =>
      have hc : c.node = node := by simpa using hi
      simp [hc]
    | succ i =>
      rw [getElem?_cons_succ] at hi
      -- the node is further on, so it is not this one
      have hne : c.node ≠ node := by
        rintro rfl
        rw [← getElem?_map] at hi
        exact hnew (mem_of_getElem? hi)
      rw [dropWhile_cons_of_pos (by simpa using hne), drop_succ_cons]
      exact ih hrest hi

/-- The cursor leads to where the walk from the first child would. -/
theorem Directory.Wf.seek_eq (h : d.Wf) (index : Nat) : d.seek index = d.children.drop index := by
  unfold seek
  cases hcursor : d.cursor with
  | none => rfl
  | some cursor =>
    have hfrom : d.listFrom cursor.1 = d.children.drop cursor.2 :=
      dropWhile_node h.nodes (h.cursor _ _ hcursor)
    dsimp only
    split_ifs with hnext hsame
    · rw [hfrom, tail_drop, hnext.1]
    · rw [hfrom, hsame.1]
    · rfl

private theorem Directory.Wf.readdir (h : d.Wf) (index : Nat) :
    (d.readdir index).1 = d.children[index]? ∧
    (d.readdir index).2.children = d.children ∧ (d.readdir index).2.Wf := by
  unfold Directory.readdir
  rw [h.seek_eq, head?_drop]
  cases hchild : d.children[index]? with
  | none => exact ⟨rfl, rfl, h⟩
  | some child =>
    refine ⟨rfl, rfl, h.nodes, fun node i hcursor => ?_⟩
    cases hcursor
    rw [hchild]
    rfl

private theorem Directory.Wf.attach (h : d.Wf) {child : Child}
    (hnew : d.children.any (·.node = child.node) = false) : (d.attach child).Wf := by
  unfold Directory.attach
  split_ifs
  · exact h
  have hnode : child.node ∉ d.children.map Child.node := by simpa using hnew
  constructor
  · rw [map_append, nodup_append]
    refine ⟨h.nodes, by simp, ?_⟩
    rintro node hmem _ hlast rfl
    rw [map_singleton, mem_singleton] at hlast
    exact hnode (hlast ▸ hmem)
  · intro node index hcursor
    have hat := h.cursor node index hcursor
    obtain ⟨c, hc, -⟩ := Option.map_eq_some_iff.mp hat
    rw [getElem?_append_left (List.getElem?_eq_some_iff.mp hc).1]
    exact hat

private theorem Directory.Wf.detach (h : d.Wf) (node : Nat) : (d.detach node).Wf := by
  unfold Directory.detach
  split_ifs
  · exact ⟨(eraseP_sublist.map _).nodup h.nodes, nofun⟩
  · exact h

/-! ## The entries -/

def Dirent.node : Dirent → Option Nat
  | .child c => some c.node
  | _ => none

/-- The longest record there is. -/
def recordMax : Nat := 280

private theorem Dirent.recordLength_le (entry : Dirent) : entry.recordLength ≤ recordMax := by
  have hlength : entry.nameLength ≤ 255 := by
    cases entry with
    | self | parent => decide
    | child c => exact c.length_le
  unfold recordLength recordMax
  omega

/-- All that a listing should return. -/
def Directory.entries (d : Directory) : List Dirent := .self :: .parent :: d.children.map .child

private theorem Directory.Wf.entries_nodup (h : d.Wf) : d.entries.Nodup := by
  have hchildren : (d.children.map Dirent.child).Nodup := by
    refine pairwise_map.mpr ((pairwise_map.mp h.nodes).imp fun hne heq => hne ?_)
    rw [Dirent.child.inj heq]
  simpa [Directory.entries] using hchildren

private theorem Directory.entries_attach (d : Directory) (child : Child) :
    d.entries <+: (d.attach child).entries := by
  unfold attach entries
  split_ifs
  · exact prefix_refl _
  · rw [map_append]
    exact prefix_append ..

private theorem Directory.entries_detach (d : Directory) (node : Nat) :
    (d.detach node).entries = d.entries.eraseP (·.node = some node) := by
  have hmap : d.entries.eraseP (·.node = some node) =
      .self :: .parent :: (d.children.eraseP (·.node = node)).map .child := by
    simp [entries, Dirent.node, eraseP_map, Function.comp_def]
  rw [hmap, detach]
  split_ifs with hany
  · rfl
  · rw [eraseP_of_forall_not (by simpa using hany)]
    rfl

/-! ## The listing -/

/-- The buffers hold a record, and no entry that was returned leaves the directory. -/
def Listing.Undisturbed (s : Listing) : ListingEvent → Prop
  | .detach node => ∀ entry ∈ s.returned, entry.node ≠ some node
  | .enter length => recordMax ≤ length
  | _ => True

instance (s : Listing) : DecidablePred s.Undisturbed := fun event => by
  cases event <;> unfold Listing.Undisturbed <;> infer_instance

/-- The records that were returned are the first entries of the directory, as many as the offset
    says. -/
structure Listing.Lists (s : Listing) : Prop where
  wf : s.directory.Wf
  first : s.returned <+: s.directory.entries
  offset : s.returned.length = s.offset
  room : ∀ length written, s.call = some (length, written) → recordMax ≤ length
  finished : s.finished = true → s.returned = s.directory.entries

/-- A change of the directory behind the entries that were returned. -/
theorem Listing.Lists.change (h : s.Lists) (hfinished : s.finished = false) (hwf : d.Wf)
    (hfirst : s.returned <+: d.entries) : Listing.Lists { s with directory := d } where
  wf := hwf
  first := hfirst
  offset := h.offset
  room := h.room
  finished hdone := by
    rw [hfinished] at hdone
    cases hdone

/-- The entry at the offset is the one behind those that were returned. -/
theorem Listing.Lists.entry (h : s.Lists) : s.entry.1 = s.directory.entries[s.offset]? ∧
    s.entry.2.children = s.directory.children ∧ s.entry.2.Wf := by
  unfold Listing.entry
  match s.offset with
  | 0 => exact ⟨rfl, rfl, h.wf⟩
  | 1 => exact ⟨rfl, rfl, h.wf⟩
  | offset + 2 =>
    obtain ⟨hchild, hsame, hwf⟩ := h.wf.readdir offset
    refine ⟨?_, hsame, hwf⟩
    simpa [Directory.entries] using congrArg (Option.map Dirent.child) hchild

private theorem Listing.Lists.leave (h : s.Lists) {written : Nat}
    (hend : written = 0 → s.returned = s.directory.entries) : (s.leave written).Lists where
  wf := h.wf
  first := h.first
  offset := h.offset
  room := nofun
  finished hzero := hend (of_decide_eq_true hzero)

/-- One entry is returned, or the listing ends. -/
private theorem Listing.Lists.turn (h : s.Lists) (hfinished : s.finished = false) (copied : Bool)
    {length written : Nat} (hcall : s.call = some (length, written)) :
    (s.turn copied length written).Lists := by
  have hroom := h.room length written hcall
  obtain ⟨hentry, hsame, hwf⟩ := h.entry
  have hentries : s.entry.2.entries = s.directory.entries := by
    unfold Directory.entries
    rw [hsame]
  have hnext := h.change hfinished hwf (by rw [hentries]; exact h.first)
  have hoffset := h.offset
  obtain ⟨rest, hrest⟩ := h.first
  unfold Listing.turn
  by_cases hsmall : length < written + 24
  · rw [if_pos hsmall]
    -- a call that has written nothing has room for a record
    exact h.leave fun hzero => by unfold recordMax at hroom; omega
  rw [if_neg hsmall]
  dsimp only
  cases hat : s.entry.1 with
  | none =>
    -- the offset is behind the last entry
    rw [hentry, getElem?_eq_none_iff] at hat
    refine hnext.leave fun _ => ?_
    show s.returned = s.entry.2.entries
    rw [hentries]
    exact h.first.eq_of_length_le (by omega)
  | some entry =>
    have hlength := entry.recordLength_le
    dsimp only
    split_ifs with hfull
    · exact hnext.leave fun hzero => by omega
    · exact ⟨hnext.wf, hnext.first, hoffset, nofun, hnext.finished⟩
    rw [hentry, ← hrest, ← hoffset, getElem?_append_right (Nat.le_refl _), Nat.sub_self,
      ← head?_eq_getElem?] at hat
    obtain ⟨more, rfl⟩ := head?_eq_some_iff.mp hat
    constructor
    · exact hnext.wf
    · show s.returned ++ [entry] <+: s.entry.2.entries
      rw [hentries, ← hrest]
      exact ⟨more, append_assoc ..⟩
    · show (s.returned ++ [entry]).length = s.offset + 1
      rw [length_append, hoffset, length_singleton]
    · intro length' written' heq
      cases heq
      exact hroom
    · intro hdone
      rw [show s.finished = true from hdone] at hfinished
      cases hfinished

/-- Every step keeps what was returned to the first entries. -/
private theorem Listing.Lists.step (h : s.Lists) {event : ListingEvent}
    (hcond : s.Undisturbed event)
    (hstep : s.step event = some t) : t.Lists := by
  unfold Listing.step at hstep
  split at hstep
  · cases hstep
  next hnot =>
  have hfinished : s.finished = false := by simpa using hnot
  split at hstep
  · next child =>
    split at hstep
    · cases hstep
    next hnew =>
    cases hstep
    exact h.change hfinished (h.wf.attach (by simpa using hnew))
      (h.first.trans (s.directory.entries_attach child))
  · next node =>
    cases hstep
    refine h.change hfinished (h.wf.detach node) ?_
    -- the entry that leaves is behind those that were returned
    obtain ⟨rest, hrest⟩ := h.first
    rw [Directory.entries_detach, ← hrest, eraseP_append_right _ fun entry hentry => by
      simpa using hcond entry hentry]
    exact prefix_append ..
  · cases hstep
    exact h.change hfinished ⟨h.wf.nodes, nofun⟩ h.first
  · cases hstep
    refine ⟨h.wf, h.first, h.offset, fun length written hcall => ?_, h.finished⟩
    cases hcall
    exact hcond
  · next hcall =>
    cases hstep
    exact h.turn hfinished _ hcall
  · cases hstep

/-- A directory that has just been opened. -/
def Directory.opened (d : Directory) : Listing := ⟨d, 0, none, [], false⟩

/-- While no entry that was returned is removed or renamed, a listing returns nothing twice,
    whatever else happens to the directory; and when it ends, each entry that is there was returned
    once. -/
theorem listing_complete {events : List ListingEvent} (hd : d.Wf)
    (hcond : Always Listing.step Listing.Undisturbed d.opened events)
    (hrun : run Listing.step d.opened events = some t) : t.returned.Nodup ∧
      (t.finished = true → ∀ entry ∈ t.directory.entries, t.returned.count entry = 1) := by
  have hstart : d.opened.Lists := ⟨hd, nil_prefix, rfl, nofun, nofun⟩
  have hlists :
      t.Lists := run_invariant (fun _ _ _ h hcond hstep => h.step hcond hstep) hstart hcond hrun
  have hnodup := hlists.first.sublist.nodup hlists.wf.entries_nodup
  refine ⟨hnodup, fun hdone entry hentry => ?_⟩
  rw [hlists.finished hdone] at hnodup ⊢
  exact count_eq_one_of_mem hnodup hentry

/-- Three files. -/
def threeFiles : Directory :=
  ⟨[⟨1, ['a'], by decide⟩, ⟨2, ['b'], by decide⟩, ⟨3, ['c'], by decide⟩], none⟩

/-- When one file has been returned, a file is removed and another one made; the listing then goes
    on. -/
def listAround (removed : Nat) : List ListingEvent :=
  [.enter 280, .turn true, .turn true, .turn true, .turn false, .detach removed,
    .attach ⟨4, ['d'], by decide⟩, .enter 280, .turn true, .turn true, .turn true,
      .enter 280, .turn true]

/-- Three files are listed once each, though others come and go in between. -/
theorem threeFiles_listed : ∃ t, run Listing.step threeFiles.opened (listAround 2) = some t ∧
    t.finished = true ∧ t.returned.Nodup ∧ ∀ entry ∈ t.directory.entries,
      t.returned.count entry = 1 := by
  obtain ⟨t, ht⟩ : ∃ t, run Listing.step threeFiles.opened (listAround 2) = some t := ⟨_, rfl⟩
  have hfinished : t.finished = true := by
    rw [← Option.some.inj ht]
    decide
  have hwf : threeFiles.Wf := ⟨by decide, fun _ _ hcursor => by cases hcursor⟩
  have hcomplete := listing_complete hwf (by decide) ht
  exact ⟨t, ht, hfinished, hcomplete.1, hcomplete.2 hfinished⟩

/-- The file that was returned is the one removed, and the next, which is there all the time, is
    skipped. -/
theorem threeFiles_skipped : ∃ t, run Listing.step threeFiles.opened (listAround 1) = some t ∧
    t.finished = true ∧
      Always Listing.step (fun s _ => .child ⟨2, ['b'], by decide⟩ ∈ s.directory.entries)
      threeFiles.opened (listAround 1) ∧
    .child ⟨2, ['b'], by decide⟩ ∈ t.directory.entries ∧
      t.returned.count (.child ⟨2, ['b'], by decide⟩) = 0 := by
  decide

end Tunix.Fs
