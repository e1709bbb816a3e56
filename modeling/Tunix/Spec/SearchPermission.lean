import Tunix.ForStd.Except
import Tunix.Kernel.OpenAt
import Tunix.Spec.VfsRuns
import Mathlib.Data.List.TakeWhile

/-!
# Search permission

A lookup goes through the directories of a path, and through those of the target of each symbolic
link that it follows. `cred_may_search` does not follow it there: it looks up what the path is up to
each of its slashes, and asks for search permission in the directories where these lookups end. Up
to the first symbolic link these are the directories of the walk, except for the root
(`Vfs.walk_upTo`), so what is left to the modes of the tree are the root and the directories behind
a link (`View.searched_of_links`).
-/

namespace Tunix.Core

open Fs Steps Except View

/-! ## The directories of a lookup -/

/-- A turn of the walk looks a name up where it is. -/
def Vfs.looksUp (s : Vfs) (current : Nat) (cursor : Name) : Bool :=
  (s.node current).kind = .directory &&
    match nextComponent cursor with
    | none => false
    | some (component, _) => validComponent component

/-- The directories in which a walk looks names up. -/
def Vfs.walkDirs (s : Vfs) (p : Process) (followFinal : Bool) : Nat → Nat → Name → Bool → List Nat
  | _, _, [], _ => []
  | 0, _, _, _ => []
  | turns + 1, current, cursor, required =>
    let here := if Vfs.looksUp s current cursor then [current] else []
    match s.walkStep p followFinal current cursor required with
    | .stop _ => here
    | .go next rest required => here ++ Vfs.walkDirs s p followFinal turns next rest required

/-- Where a lookup starts. -/
def Vfs.start (s : Vfs) (p : Process) : Nat := s.crossMounts p vfsMountMaxDepth vfsRoot

/-- The directories of each path of a lookup: of the given one, and of each path that a symbolic
    link makes of it. -/
def Vfs.followDirs (s : Vfs) (p : Process) (memory : Nat → Bool) (followFinal : Bool) :
    Nat → Name → Bool → List (List Nat)
  | links, path, required =>
    let here := Vfs.walkDirs s p followFinal path.length (Vfs.start s p) path required
    match s.walk p followFinal path.length (Vfs.start s p) path required with
    | .link directory target rest required =>
      match links with
      | 0 => [here]
      | links + 1 =>
        let followed := vfsSymlinkMaxDepth - 1 - links
        if followed < 2 ∧ !memory followed then [here]
        else match s.symlinkPath p directory target rest with
          | none => [here]
          | some path => here :: Vfs.followDirs s p memory followFinal links path required
    | _ => [here]

def Vfs.lookupDirs (s : Vfs) (p : Process) (memory : Nat → Bool) (path : Name)
    (followFinal : Bool) :
    List (List Nat) :=
  if path.head? ≠ some '/' then []
  else Vfs.followDirs s p memory followFinal vfsSymlinkMaxDepth path false

/-! ## Requests -/

/-- What the checks are made for: `cred_may_path`, `cred_may_write_parent` and `cred_may_remove` for
    a path that the caller looks up, and `open_at`. -/
inductive Request
  | mayPath (path : Name) (followFinal : Bool) (x : Nat) (want : UInt32)
  | mayWriteParent (path : Name) (followFinal : Bool)
  | mayRemove (path : Name) (followFinal : Bool) (x : Nat)
  | openAt (input : OpenInput) (base : Option Nat) (path : Name) (flags : UInt64)

/-- The path that `open_at` looks up, if it comes to that. -/
def View.openPath (v : View) (input : OpenInput) (base : Option Nat) (path : Name) : Option Name :=
  do
  let base ← pathBase base path
  let path ← (normalizePath v.tree v.process input.normalizeMemory base path).toOption
  if (input.reopen path).isSome then none else some path

def View.result (v : View) : Request → Except Errno Unit
  | .mayPath path _ x want => v.mayPath path x want
  | .mayWriteParent path _ => v.mayWriteParent path
  | .mayRemove path _ x => v.mayRemove path x
  | .openAt input base path flags => (v.openAt input base path flags).map fun _ => ()

/-- The request is permitted. -/
def View.Permits (v : View) (request : Request) : Prop := v.result request = .ok ()

/-- The path of a request, and whether a link as its last component is followed. -/
def View.target (v : View) : Request → Option (Name × Bool)
  | .mayPath path followFinal _ _ => some (path, followFinal)
  | .mayWriteParent path followFinal => some (path, followFinal)
  | .mayRemove path followFinal _ => some (path, followFinal)
  | .openAt input base path flags =>
    (v.openPath input base path).map fun path => (path, !meets (flags &&& oSupported) oNofollow)

/-- The directories of each path of the lookup of a request. -/
def View.lookups (v : View) (request : Request) : List (List Nat) := match v.target request with
  | none => []
  | some (path, followFinal) => Vfs.lookupDirs v.tree v.process (v.spare .path) path followFinal

/-- The directories that the path of a request leads through. -/
def View.visited (v : View) (request : Request) : List Nat := (v.lookups request).flatten

/-- Those of them that it leads through behind the first symbolic link. -/
def View.behindLinks (v : View) (request : Request) : List Nat := (v.lookups request).tail.flatten

/-- Whoever is permitted a request may search every directory that its path leads through. -/
def View.Searched (v : View) (request : Request) : Prop :=
  v.Permits request → ∀ d ∈ v.visited request, v.may d credExec = .ok ()

/-! ## The path up to a slash -/

section UpTo

variable {s : Vfs} {p : Process} {followFinal required required' : Bool} {current next d : Nat}
  {cursor cursor' component rest rest' : Name}

/-- The first component of a text in which a slash, or nothing, comes behind a component. -/
theorem nextComponent_append {before tail : Name} (hbefore : ∀ c ∈ before, isSlash c = true)
    (hcomponent : ∀ c ∈ component, isSlash c = false) (hne : component ≠ [])
    (hlong : ¬component.length > vfsNameMax)
    (htail : ∀ c ∈ tail.head?, isSlash c = true) :
    nextComponent (before ++ component ++ tail) = some (component, tail.dropWhile isSlash) := by
  have hnot : ∀ c ∈ component, (!isSlash c) = true := fun c hc => by simp [hcomponent c hc]
  have hdrop : (before ++ component ++ tail).dropWhile isSlash = component ++ tail := by
    rw [List.append_assoc, List.dropWhile_append_of_pos hbefore]
    obtain ⟨c, name, rfl⟩ := List.exists_cons_of_ne_nil hne
    exact List.dropWhile_cons_of_neg (by simp [hcomponent c List.mem_cons_self])
  have hstop : tail.takeWhile (!isSlash ·) = [] ∧ tail.dropWhile (!isSlash ·) = tail := by
    cases tail with
    | nil => exact ⟨rfl, rfl⟩
    | cons c tail => simp [htail c rfl]
  unfold nextComponent
  dsimp only
  rw [hdrop, List.takeWhile_append_of_pos hnot, List.dropWhile_append_of_pos hnot, hstop.1, hstop.2,
    List.append_nil, if_neg hlong]

/-- There is nothing more to drop from a beginning of what is left. -/
private theorem dropWhile_take_dropWhile {α : Type*} (p : α → Bool) (l : List α) (m : Nat) :
    ((l.dropWhile p).take m).dropWhile p = (l.dropWhile p).take m := by
  cases hl : l.dropWhile p with
  | nil => simp
  | cons c rest =>
    have hstop := List.head_dropWhile_not p (l := l) (by rw [hl]; exact List.cons_ne_nil _ _)
    cases m with
    | zero => rfl
    | succ m => exact List.dropWhile_cons_of_neg (by simpa [hl] using hstop)

/-- The text up to the slash behind the first component, and a longer one, have the same first
    component. -/
theorem nextComponent_upTo (h : nextComponent cursor = some (component, rest))
    (hne : component ≠ []) (hrest : rest ≠ []) :
    ∃ front gap, cursor = front ++ '/' :: gap ++ rest ∧ front ≠ [] ∧ front.getLast? ≠ some '/' ∧
      nextComponent front = some (component, []) ∧
      ∀ m, nextComponent (front ++ '/' :: gap ++ rest.take m) = some (component, rest.take m) := by
  unfold nextComponent at h
  dsimp only at h
  split_ifs at h with hlong
  obtain ⟨hcomponent, hbehind⟩ := Prod.mk.inj (Option.some.inj h)
  have hname : ∀ c ∈ component, isSlash c = false := fun c hc => by
    rw [← hcomponent] at hc
    simpa using List.mem_takeWhile_imp hc
  have hbefore : ∀ c ∈ cursor.takeWhile isSlash, isSlash c = true :=
    fun c hc => List.mem_takeWhile_imp hc
  rw [hcomponent] at hlong
  -- what a component ends at is a slash
  cases htail : (cursor.dropWhile isSlash).dropWhile (!isSlash ·) with
  | nil => exact absurd (by rw [← hbehind, htail]; rfl) hrest
  | cons slash tail =>
    have hslash : isSlash slash = true := by
      have hstop := List.head_dropWhile_not (!isSlash ·) (l := cursor.dropWhile isSlash)
        (by rw [htail]; exact List.cons_ne_nil _ _)
      simpa only [htail, List.head_cons, Bool.not_eq_false'] using hstop
    obtain rfl : slash = '/' := by simpa [isSlash] using hslash
    rw [htail, List.dropWhile_cons_of_pos hslash] at hbehind
    have hgap : ∀ c ∈ '/' :: tail.takeWhile isSlash, isSlash c = true := by
      intro c hc
      rcases List.mem_cons.mp hc with rfl | hc
      · rfl
      · exact List.mem_takeWhile_imp hc
    refine ⟨cursor.takeWhile isSlash ++ component, tail.takeWhile isSlash, ?_, ?_,
      ?_, ?_, fun m => ?_⟩
    · calc cursor = cursor.takeWhile isSlash ++ (component ++ '/' :: tail) := by
            rw [← hcomponent, ← htail, List.takeWhile_append_dropWhile,
              List.takeWhile_append_dropWhile]
        _ = _ := by rw [← hbehind]; simp
    · simp [hne]
    · rw [List.getLast?_append_of_ne_nil _ hne]
      intro hlast
      exact absurd (hname _ (List.mem_of_getLast? hlast)) (by decide)
    · simpa using nextComponent_append hbefore hname hne hlong
        (show ∀ c ∈ [].head?, _ from fun c hc => nomatch hc)
    · rw [List.append_assoc _ ('/' :: _),
        nextComponent_append hbefore hname hne hlong (by simp [isSlash]),
        List.dropWhile_append_of_pos hgap, ← hbehind, dropWhile_take_dropWhile]

/-- A turn that goes on from a component with something behind it goes the same way for a shorter
    path. -/
theorem Vfs.walkStep_upTo
    (hstep : s.walkStep p followFinal current cursor required = .go next rest required')
    (hcomponent : nextComponent cursor = some (component, rest)) (hne : component ≠ [])
    (hrest : rest ≠ [])
    (hcomponent' : nextComponent cursor' = some (component, rest'))
    (hlast : rest' = [] → cursor'.getLast? ≠ some '/') :
    s.walkStep p true current cursor' false = .go next rest' false := by
  obtain ⟨c, name, rfl⟩ := List.exists_cons_of_ne_nil hne
  have hnot : (decide (rest' = []) && decide (cursor'.getLast? = some '/')) = false := by
    simpa using hlast
  simp only [Vfs.walkStep, hcomponent, hcomponent', hnot, Bool.or_false] at hstep ⊢
  -- A dot, two dots, or a name.
  split_ifs at hstep ⊢ with hkind hdot hdots
  · obtain ⟨rfl, -⟩ := WalkStep.go.inj hstep
    rfl
  · obtain ⟨rfl, -⟩ := WalkStep.go.inj hstep
    rfl
  · -- with something behind it, a link would have been followed
    unfold Vfs.enter at hstep ⊢
    cases hchild : s.findChild p current (c :: name) with
    | none => simp [hchild] at hstep
    | some child =>
      simp only [hchild, hrest, ne_eq, not_false_eq_true, decide_true, Bool.or_true, Bool.true_or,
        and_true] at hstep ⊢
      split at hstep
      · split at hstep <;> cases hstep
      next hkind' =>
        obtain ⟨rfl, -⟩ := WalkStep.go.inj hstep
        rw [if_neg hkind']

/-- A text without a component is slashes only. -/
theorem nextComponent_nil (h : nextComponent cursor = some ([], rest)) : rest = [] := by
  unfold nextComponent at h
  dsimp only at h
  split_ifs at h
  obtain ⟨hcomponent, rfl⟩ := Prod.mk.inj (Option.some.inj h)
  cases htail : cursor.dropWhile isSlash with
  | nil => rfl
  | cons c tail =>
    have hstop :=
      List.head_dropWhile_not isSlash (l := cursor) (by rw [htail]; exact List.cons_ne_nil _ _)
    simp only [htail, List.head_cons] at hstop
    rw [htail, List.takeWhile_cons_of_pos (by simp [hstop])] at hcomponent
    cases hcomponent

private theorem Vfs.nextComponent_of_go
    (hstep : s.walkStep p followFinal current cursor required = .go next rest required') :
    ∃ component, nextComponent cursor = some (component, rest) := by
  unfold Vfs.walkStep at hstep
  split at hstep
  · cases hstep
  next hcomponent =>
    obtain ⟨-, rfl, -⟩ := WalkStep.go.inj hstep
    exact ⟨_, hcomponent⟩
  next component rest' _ hcomponent =>
    refine ⟨component, hcomponent.trans ?_⟩
    split_ifs at hstep
    · rw [(WalkStep.go.inj hstep).2.1]
    · rw [(WalkStep.go.inj hstep).2.1]
    · unfold Vfs.enter at hstep
      dsimp only at hstep
      split at hstep
      · cases hstep
      split_ifs at hstep
      · split at hstep <;> cases hstep
      · rw [(WalkStep.go.inj hstep).2.1]

private theorem Vfs.walk_go {turns : Nat} (hne : cursor ≠ [])
    (hstep : s.walkStep p followFinal current cursor required = .go next rest required') :
    s.walk p followFinal (turns + 1) current cursor required =
      s.walk p followFinal turns next rest required' := by
  obtain ⟨c, tail, rfl⟩ := List.exists_cons_of_ne_nil hne
  simp only [Vfs.walk, hstep]

/-- A directory of a walk is where it starts, or one of the walk that goes on behind a component. -/
theorem Vfs.mem_walkDirs {turns : Nat}
    (hd : d ∈ Vfs.walkDirs s p followFinal (turns + 1) current cursor required) :
    d = current ∨ ∃ component next rest required', nextComponent cursor = some (component, rest) ∧
      component ≠ [] ∧ rest ≠ [] ∧
        s.walkStep p followFinal current cursor required = .go next rest required' ∧
      d ∈ Vfs.walkDirs s p followFinal turns next rest required' := by
  cases cursor with
  | nil => cases hd
  | cons c tail =>
    have hhere (hmem : d ∈ if Vfs.looksUp s current (c :: tail) then [current] else []) :
        d = current := by
      split_ifs at hmem
      · exact List.mem_singleton.mp hmem
      · cases hmem
    unfold Vfs.walkDirs at hd
    dsimp only at hd
    split at hd
    · exact Or.inl (hhere hd)
    next next rest required' hstep =>
      rcases List.mem_append.mp hd with hd | hd
      · exact Or.inl (hhere hd)
      -- A turn behind the end of the path would look nothing up.
      have hrest : rest ≠ [] := by
        rintro rfl
        cases turns <;> cases hd
      obtain ⟨component, hcomponent⟩ := Vfs.nextComponent_of_go hstep
      refine Or.inr ⟨component, next, rest, required', hcomponent, ?_, hrest, hstep, hd⟩
      rintro rfl
      exact hrest (nextComponent_nil hcomponent)

/-- Every directory that a walk comes to is where the walk up to some slash ends. -/
theorem Vfs.walk_upTo {turns : Nat}
    (hd : d ∈ Vfs.walkDirs s p followFinal turns current cursor required) :
    d = current ∨ ∃ index, 0 < index ∧ cursor[index]? = some '/' ∧
      ∀ fuel, index ≤ fuel →
        s.walk p true fuel current (cursor.take index) false = .node d false := by
  induction turns generalizing current cursor required with
  | zero => cases cursor <;> cases hd
  | succ turns ih =>
    rcases Vfs.mem_walkDirs hd with rfl
        | ⟨component, next, rest, required', hcomponent, hne, hrest, hstep, hd⟩
    · exact Or.inl rfl
    right
    -- `front` ends with the component, `gap` are the slashes behind it.
    obtain ⟨front, gap, hsplit, hfront, hlast, hnext, hmore⟩ :=
      nextComponent_upTo hcomponent hne hrest
    have hpos : 0 < front.length := List.length_pos_of_ne_nil hfront
    rcases ih hd with rfl | ⟨index, hindex, hslash, hwalk⟩
    · -- the walk up to this slash ends here
      refine ⟨front.length, hpos, by simp [hsplit], fun fuel hfuel => ?_⟩
      obtain ⟨fuel, rfl⟩ := Nat.exists_eq_add_of_le' (hpos.trans_le hfuel)
      rw [show cursor.take front.length = front by simp [hsplit],
        Vfs.walk_go hfront (Vfs.walkStep_upTo hstep hcomponent hne hrest hnext fun _ => hlast)]
      cases fuel <;> rfl
    · -- the walk up to a later slash passes it
      generalize hbehind : front ++ '/' :: gap = behind at hsplit hmore
      have hlong : 0 < behind.length := by
        rw [← hbehind, List.length_append]
        omega
      have htake : cursor.take (behind.length + index) = behind ++ rest.take index := by
        rw [hsplit, List.take_length_add_append]
      have hmore' : rest.take index ≠ [] := by
        simp [hrest, hindex.ne']
      refine ⟨behind.length + index, by omega, ?_, fun fuel hfuel => ?_⟩
      · rw [hsplit, List.getElem?_append_right (Nat.le_add_right _ _), Nat.add_sub_cancel_left]
        exact hslash
      obtain ⟨fuel, rfl⟩ := Nat.exists_eq_add_of_le' (show 1 ≤ fuel by omega)
      rw [htake, Vfs.walk_go (by simp [hmore'])
        (Vfs.walkStep_upTo hstep hcomponent hne hrest (hmore index)
        fun hnil => absurd hnil hmore')]
      exact hwalk fuel (by omega)

end UpTo

section Checked

variable {v : View} {path : Name} (hfs : v.cred.user.fs ≠ 0)

include hfs

/-- The turns of the loop of `cred_may_search` have all come to their end. -/
theorem View.maySearchUpTo_of_maySearch (h : v.maySearch path = .ok ())
    (hhead : path.head? = some '/') :
    ∀ index ∈ slashes path, v.maySearchUpTo path index = .ok () := by
  unfold maySearch at h
  rw [if_neg (by simp [hfs, hhead])] at h
  split_ifs at h
  have hturns : ∀ indices : List Nat, indices.forM (v.maySearchUpTo path) = .ok () →
      ∀ index ∈ indices, v.maySearchUpTo path index = .ok () := by
    intro indices
    induction indices with
    | nil => exact fun _ index hmem => absurd hmem List.not_mem_nil
    | cons first rest ih =>
      intro hforM index hmem
      obtain ⟨_, hfirst, hrest⟩ := eq_ok_of_bind hforM
      rcases List.mem_cons.mp hmem with rfl | hmem
      · exact hfirst
      · exact ih hrest index hmem
  exact hturns _ h

/-- What a path leads through up to its first symbolic link is checked. -/
theorem View.may_of_maySearch {followFinal : Bool} {d : Nat} (h : v.maySearch path = .ok ())
    (hhead : path.head? = some '/')
    (hd : d ∈ Vfs.walkDirs v.tree v.process followFinal path.length
      (Vfs.start v.tree v.process) path false) :
    d = Vfs.start v.tree v.process ∨ v.may d credExec = .ok () := by
  refine (Vfs.walk_upTo hd).imp_right ?_
  rintro ⟨index, hpos, hslash, hwalk⟩
  have hlt : index < path.length := (List.getElem?_eq_some_iff.mp hslash).1
  have hturn := maySearchUpTo_of_maySearch hfs h hhead index
    (List.mem_filter.mpr ⟨List.mem_range.mpr hlt, by simp [hpos, hslash]⟩)
  have hlookup : v.lookup (.upTo index) (path.take index) true = .ok d := by
    have htake : (path.take index).head? = some '/' := by
      rw [List.head?_take, if_neg hpos.ne', hhead]
    have hlength : (path.take index).length = index := by simp [hlt.le]
    have hend := hwalk index le_rfl
    unfold Vfs.start at hend
    rw [lookup, Vfs.lookupInternal, if_neg (by simp [htake]), Vfs.follow, hlength, hend]
    rfl
  rw [maySearchUpTo, hlookup] at hturn
  exact hturn

/-- So are the directories of the first path of a lookup, and the others are behind a link. -/
theorem View.may_of_lookupDirs {memory : Nat → Bool} {followFinal : Bool}
    (h : v.maySearch path = .ok ()) {d : Nat}
    (hd : d ∈ (Vfs.lookupDirs v.tree v.process memory path followFinal).flatten) :
    d = Vfs.start v.tree v.process ∨ v.may d credExec = .ok () ∨
      d ∈ (Vfs.lookupDirs v.tree v.process memory path followFinal).tail.flatten := by
  unfold Vfs.lookupDirs at hd ⊢
  split_ifs at hd ⊢ with hhead
  · cases hd
  rw [not_not] at hhead
  obtain ⟨others, hdirs⟩ :
      ∃ others, Vfs.followDirs v.tree v.process memory followFinal vfsSymlinkMaxDepth path false =
      Vfs.walkDirs v.tree v.process followFinal path.length
        (Vfs.start v.tree v.process) path false :: others := by
    unfold Vfs.followDirs
    dsimp only
    repeat' split
    all_goals exact ⟨_, rfl⟩
  rw [hdirs, List.flatten_cons] at hd
  rw [hdirs, List.tail_cons]
  rcases List.mem_append.mp hd with hd | hd
  · exact (may_of_maySearch hfs h hhead hd).imp_right Or.inl
  · exact Or.inr (Or.inr hd)

end Checked

section Permits

variable {v : View} {path : Name}

private theorem View.maySearch_of_mayWriteParent (h : v.mayWriteParent path = .ok ()) :
    v.maySearch path = .ok () :=
  (eq_ok_of_bind h).elim fun _ hresult => hresult.1

private theorem View.maySearch_of_mayPath {x : Nat} {want : UInt32}
    (h : v.mayPath path x want = .ok ()) :
    v.maySearch path = .ok () :=
  (eq_ok_of_bind h).elim fun _ hresult => hresult.1

/-- An open that comes to an end has passed the check for the path, or the one for its directory. -/
theorem View.maySearch_of_openResolved {input : OpenInput} {flags : UInt64} {fd : Nat}
    (h : v.openResolved input path flags = .ok fd) : v.maySearch path = .ok () := by
  unfold openResolved at h
  dsimp only at h
  split at h
  · have hpermits : v.mayWriteParent path = .ok () := by
      split at h
      · cases h
      split at h
      · cases h
      split at h
      · cases h
      · cases h
      · cases h
      split at h
      · cases h
      · exact (eq_ok_of_bind h).elim fun _ hresult => hresult.1
    exact maySearch_of_mayWriteParent hpermits
  · split at h
    · cases h
    obtain ⟨_, hpermits, -⟩ := eq_ok_of_bind h
    exact maySearch_of_mayPath hpermits

private theorem View.openAt_resolved {input : OpenInput} {base : Option Nat}
    {flags : UInt64} {fd : Nat}
    {path' : Name} (hpath : v.openPath input base path = some path')
    (h : v.openAt input base path flags = .ok fd) :
    v.openResolved input path' (flags &&& oSupported) = .ok fd := by
  obtain ⟨base', hbase, hpath⟩ := Option.bind_eq_some_iff.mp hpath
  obtain ⟨normal, hnormal, hpath⟩ := Option.bind_eq_some_iff.mp hpath
  split_ifs at hpath with hreopen
  obtain rfl := Option.some.inj hpath
  rw [Option.not_isSome_iff_eq_none] at hreopen
  unfold openAt at h
  dsimp only at h
  split at h
  · cases h
  split at h
  · cases h
  rw [hbase] at h
  obtain ⟨normal', hnormal', h⟩ := eq_ok_of_bind h
  rw [eq_ok_of_toOption hnormal] at hnormal'
  obtain rfl := ok.inj hnormal'
  rw [hreopen] at h
  exact h

/-- Every permitted request has passed `cred_may_search` for its path. -/
theorem View.maySearch_of_permits {request : Request} {followFinal : Bool} (h : v.Permits request)
    (htarget : v.target request = some (path, followFinal)) : v.maySearch path = .ok () := by
  cases request with
  | mayPath _ _ x want =>
    obtain ⟨rfl, -⟩ := Prod.mk.inj (Option.some.inj htarget)
    exact maySearch_of_mayPath h
  | mayWriteParent _ _ =>
    obtain ⟨rfl, -⟩ := Prod.mk.inj (Option.some.inj htarget)
    exact maySearch_of_mayWriteParent h
  | mayRemove _ _ x =>
    obtain ⟨rfl, -⟩ := Prod.mk.inj (Option.some.inj htarget)
    obtain ⟨_, hparent, -⟩ := eq_ok_of_bind h
    exact maySearch_of_mayWriteParent hparent
  | openAt input base opened flags =>
    obtain ⟨path', hpath, heq⟩ := Option.map_eq_some_iff.mp htarget
    obtain ⟨rfl, -⟩ := Prod.mk.inj heq
    cases hopen : v.openAt input base opened flags with
    | error e =>
      rw [Permits, result, hopen] at h
      cases h
    | ok fd => exact maySearch_of_openResolved (openAt_resolved hpath hopen)

end Permits

/-- A file in a directory that only the root may search, and a link to it. -/
def secretTree : Vfs :=
  let p : Process := { root := vfsRoot, resolve := fun _ => none }
  let memory : Memory := fun _ => true
  let s := (vfsInit.createDirectory p memory ['/', 's']).2
  let s := (s.createFileNode p memory ['/', 's', '/', 'f']).2
  (s.createSymlink p memory ['/', 'l'] ['/', 's', '/', 'f'] false).2

/-- The view of user 1000; the directory, node 1, has this mode. -/
def secretView (mode : UInt32) : View :=
  { tree := secretTree
    process := { root := vfsRoot, resolve := fun _ => none }
    cred := { user := ⟨1000, 1000, 1000, 1000⟩, group := ⟨100, 100, 100, 100⟩, groups := [] }
    access := fun x => { uid := 0, gid := 0, mode := if x = 1 then mode else 0o755, acl := none }
    buffer := fun _ => true
    spare := fun _ _ => true }

/-- An open of the link for reading. -/
def secretRequest : Request :=
  .openAt { reopen := fun _ => none, normalizeMemory := true, createMemory := fun _ => true
            swapfile := fun _ => false, truncates := fun _ => true, install := fun _ => .ok 3 }
    none ['/', 'l'] oRdonly

private theorem secretView_permits (mode : UInt32) (hmode : mode = 0o700 ∨ mode = 0o711) :
    (secretView mode).Permits secretRequest := by
  unfold Permits
  rcases hmode with rfl | rfl <;> decide +kernel

end Tunix.Core
