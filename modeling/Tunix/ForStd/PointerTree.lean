import Mathlib.Data.List.Nodup

/-!
# Binary trees in memory

A binary tree kept as nodes with pointers to their children and to their parent. `Links.Holds` says
which tree the pointers represent. A tree is taken apart at one node as what stands around it, a
list of frames from the inside out, and what stands in the hole (`holds_plug`); an operation on the
pointers near the node then changes the hole and leaves the frames alone. The rotation that takes a
node one place up keeps the order of the nodes from left to right (`Links.holds_rotateUp`).
-/

namespace PointerTree

open Function List

inductive KeyTree (α : Type*) where
  | leaf
  | node (left : KeyTree α) (top : α) (right : KeyTree α)

inductive Side where
  | left
  | right

structure Links (α : Type*) where
  left : α → Option α
  right : α → Option α
  parent : α → Option α
  root : Option α

variable {α : Type*}

def KeyTree.top : KeyTree α → Option α
  | .leaf => none
  | .node _ x _ => some x

/-- The nodes from left to right. -/
def KeyTree.keys : KeyTree α → List α
  | .leaf => []
  | .node l x r => l.keys ++ x :: r.keys

/-- The top of a tree is its node. -/
@[simp] theorem KeyTree.top_leaf : (KeyTree.leaf : KeyTree α).top = none := rfl
@[simp] theorem KeyTree.top_node (l r : KeyTree α) (x : α) :
    (KeyTree.node l x r).top = some x := rfl
/-- The keys of a tree, from left to right. -/
@[simp] theorem KeyTree.keys_leaf : (KeyTree.leaf : KeyTree α).keys = [] := rfl
@[simp, grind =] theorem KeyTree.keys_node (l r : KeyTree α) (x : α) :
    (KeyTree.node l x r).keys = l.keys ++ x :: r.keys := rfl

private theorem KeyTree.mem_of_top {t : KeyTree α} {x : α} (h : t.top = some x) : x ∈ t.keys := by
  cases t with
  | leaf => simp at h
  | node l y r => simp_all

/-- The pointers below a place represent a tree whose parent is given. -/
def Links.Rep (k : Links α) : Option α → KeyTree α → Prop
  | _, .leaf => True
  | p, .node l x r =>
    k.parent x = p ∧ k.left x = l.top ∧ k.right x = r.top ∧ k.Rep (some x) l ∧ k.Rep (some x) r

def Side.flip : Side → Side
  | .left => .right
  | .right => .left

def Links.child (k : Links α) : Side → α → Option α
  | .left => k.left
  | .right => k.right

/-- The pointers represent the tree. -/
def Links.Holds (k : Links α) (t : KeyTree α) : Prop := k.root = t.top ∧ k.Rep none t

/-! ## A tree taken apart at one place -/

/-- A node on the way to the hole: the side on which the hole is, and the tree on the other side. -/
structure Frame (α : Type*) where
  side : Side
  node : α
  other : KeyTree α

def Frame.fill (f : Frame α) (t : KeyTree α) : KeyTree α := match f.side with
  | .left => .node t f.node f.other
  | .right => .node f.other f.node t

/-- The tree that stands in the frames, the innermost frame first. -/
def plug : List (Frame α) → KeyTree α → KeyTree α
  | [], t => t
  | f :: frames, t => plug frames (f.fill t)

/-- The nodes to the left of the hole. -/
def before : List (Frame α) → List α
  | [] => []
  | ⟨.left, _, _⟩ :: frames => before frames
  | ⟨.right, p, other⟩ :: frames => before frames ++ (other.keys ++ [p])

/-- The nodes to the right of the hole. -/
def after : List (Frame α) → List α
  | [] => []
  | ⟨.left, p, other⟩ :: frames => p :: (other.keys ++ after frames)
  | ⟨.right, _, _⟩ :: frames => after frames

/-- The keys of a tree with a subtree in its hole: those around it stay where they are. -/
theorem keys_plug (frames : List (Frame α)) (t : KeyTree α) :
    (plug frames t).keys = before frames ++ t.keys ++ after frames := by
  induction frames generalizing t with
  | nil => simp [plug, before, after]
  | cons f frames ih =>
    rcases f with ⟨side, p, other⟩
    cases side <;> simp [plug, ih, Frame.fill, before, after]

/-- Filling a frame adds its node and its other subtree. -/
theorem Frame.keys_fill_perm (f : Frame α) (t : KeyTree α) :
    (f.fill t).keys.Perm (f.node :: (t.keys ++ f.other.keys)) := by
  rcases f with ⟨side, q, other⟩
  cases side
  · exact perm_middle
  · exact perm_middle.trans (perm_append_comm.cons q)

/-- The nodes around the hole are those of the innermost frame and those around it. -/
theorem frames_perm (f : Frame α) (frames : List (Frame α)) :
    (before (f :: frames) ++ after (f :: frames)).Perm
      (f.node :: (f.other.keys ++ (before frames ++ after frames))) := by
  classical
  rcases f with ⟨side, q, other⟩
  rw [perm_iff_count]
  cases side <;> simp only [before, after, count_append, count_cons, count_nil] <;> omega

/-- The node whose child stands in the hole. -/
def holeParent : List (Frame α) → Option α
  | [] => none
  | f :: _ => some f.node

/-- The pointers around the hole; `hole` is where the pointer into the hole leads. -/
def Links.Around (k : Links α) : Option α → List (Frame α) → Prop
  | hole, [] => k.root = hole
  | hole, ⟨side, p, other⟩ :: frames =>
    k.parent p = holeParent frames ∧ (match side with
        | .left => k.left p = hole ∧ k.right p = other.top
        | .right => k.right p = hole ∧ k.left p = other.top) ∧
      k.Rep (some p) other ∧ k.Around (some p) frames

variable {k k' : Links α} {p p' : Option α} {t : KeyTree α} {frames : List (Frame α)} {f : Frame α}

private theorem Links.rep_fill :
    k.Rep p (f.fill t) ↔ k.parent f.node = p ∧ k.child f.side f.node = t.top ∧
    k.child f.side.flip f.node = f.other.top ∧ k.Rep (some f.node) t ∧
      k.Rep (some f.node) f.other := by
  rcases f with ⟨side, q, other⟩
  cases side
  · rfl
  · simp only [Frame.fill, Links.Rep, Links.child, Side.flip]
    tauto

private theorem Links.around_cons {hole : Option α} : k.Around hole (f :: frames) ↔
    k.parent f.node = holeParent frames ∧ k.child f.side f.node = hole ∧
      k.child f.side.flip f.node = f.other.top ∧ k.Rep (some f.node) f.other ∧
      k.Around (some f.node) frames := by
  rcases f with ⟨side, q, other⟩
  cases side <;> simp only [Links.Around, Links.child, Side.flip, and_assoc]

private theorem Frame.top_fill : (f.fill t).top = some f.node := by
  rcases f with ⟨side, q, other⟩
  cases side <;> rfl

/-- The links stand for a tree exactly if they do around the hole and in it. -/
theorem holds_plug :
    k.Holds (plug frames t) ↔ k.Around t.top frames ∧ k.Rep (holeParent frames) t := by
  induction frames generalizing t with
  | nil => rfl
  | cons f frames ih =>
    rw [plug, ih, Frame.top_fill, Links.rep_fill, Links.around_cons, holeParent]
    tauto

/-! ## What a change of other nodes leaves alone -/

/-- The pointers of a node are the same. -/
def Links.SameAt (k k' : Links α) (x : α) : Prop :=
  k'.left x = k.left x ∧ k'.right x = k.right x ∧ k'.parent x = k.parent x

private theorem Links.sameAt_iff (side : Side) {x : α} :
    k.SameAt k' x ↔ k'.child side x = k.child side x ∧
    k'.child side.flip x = k.child side.flip x ∧ k'.parent x = k.parent x := by
  cases side
  · rfl
  · exact and_left_comm

/-- Only the links of the keys of a tree matter. -/
theorem Links.Rep.congr (h : k.Rep p t) (hsame : ∀ x ∈ t.keys, k.SameAt k' x) : k'.Rep p t := by
  induction t generalizing p with
  | leaf => trivial
  | node l x r ihl ihr =>
    obtain ⟨hparent, hleft, hright, hl, hr⟩ := h
    obtain ⟨eleft, eright, eparent⟩ := hsame x (by simp)
    refine ⟨eparent.trans hparent, eleft.trans hleft, eright.trans hright, ?_, ?_⟩
    · exact ihl hl fun y hy => hsame y (by simp [hy])
    · exact ihr hr fun y hy => hsame y (by simp [hy])

/-- A tree is hung below another node: only the parent of its top changes. -/
theorem Links.Rep.reparent (h : k.Rep p t) (hnodup : t.keys.Nodup)
    (hchild : ∀ x ∈ t.keys, ∀ side, k'.child side x = k.child side x)
    (htop : ∀ x, t.top = some x → k'.parent x = p')
    (hparent : ∀ x ∈ t.keys, t.top ≠ some x → k'.parent x = k.parent x) : k'.Rep p' t := by
  cases t with
  | leaf => trivial
  | node l x r =>
    obtain ⟨-, eleft, eright, hl, hr⟩ := h
    have hx : x ∈ (KeyTree.node l x r).keys := by simp
    -- below the top nothing changes
    have hsame : ∀ y ∈ (KeyTree.node l x r).keys, y ≠ x → k.SameAt k' y := fun y hy hne =>
      ⟨hchild y hy .left, hchild y hy .right, hparent y hy (by simpa using hne.symm)⟩
    have hxl : x ∉ l.keys ∧ x ∉ r.keys := by
      rw [KeyTree.keys_node, nodup_append'] at hnodup
      exact ⟨fun hxl => hnodup.2.2 hxl (by simp), (nodup_cons.mp hnodup.2.1).1⟩
    refine ⟨htop x rfl, (hchild x hx .left).trans eleft, (hchild x hx .right).trans eright,
      hl.congr fun y hy => hsame y (by simp [hy]) ?_,
        hr.congr fun y hy => hsame y (by simp [hy]) ?_⟩
    · exact fun heq => hxl.1 (heq ▸ hy)
    · exact fun heq => hxl.2 (heq ▸ hy)

/-- Only the links around the hole matter. -/
theorem Links.Around.congr {hole : Option α} (h : k.Around hole frames) (hroot : k'.root = k.root)
    (hsame : ∀ x ∈ before frames ++ after frames, k.SameAt k' x) : k'.Around hole frames := by
  induction frames generalizing hole with
  | nil => exact hroot.trans h
  | cons f frames ih =>
    obtain ⟨hparent, hchild, hflip, hother, hrest⟩ := Links.around_cons.mp h
    simp only [(frames_perm f frames).mem_iff, mem_cons, mem_append (s := f.other.keys)] at hsame
    obtain ⟨echild, eflip, eparent⟩ := (Links.sameAt_iff f.side).mp (hsame f.node (.inl rfl))
    exact Links.around_cons.mpr ⟨eparent.trans hparent, echild.trans hchild, eflip.trans hflip,
      hother.congr fun x hx => hsame x (.inr (.inl hx)),
        ih hrest fun x hx => hsame x (.inr (.inr hx))⟩

/-! ## Rotations -/

variable [DecidableEq α] (x : Option α)

/-- The pointer to `old` from its parent, or from the root, is turned to `new`. -/
def Links.replaceChild (k : Links α) (parent : Option α) (old : α) (new : Option α) : Links α :=
  match parent with
  | none => { k with root := new }
  | some p =>
    if k.left p = some old then { k with left := update k.left p new }
    else { k with right := update k.right p new }

def Links.setParent (k : Links α) (x : Option α) (p : Option α) : Links α := match x with
  | none => k
  | some x => { k with parent := update k.parent x p }

/-- A node takes the place of its parent, and the parent becomes its child. -/
def Links.rotateUp (k : Links α) (x : α) : Links α := match k.parent x with
  | none => k
  | some p =>
    let grand := k.parent p
    let k :=
      if k.left p = some x then
        let k := { k with left := update k.left p (k.right x) }
        let k := k.setParent (k.right x) (some p)
        { k with right := update k.right x (some p) }
      else
        let k := { k with right := update k.right p (k.left x) }
        let k := k.setParent (k.left x) (some p)
        { k with left := update k.left x (some p) }
    let k := { k with parent := update k.parent p (some x) }
    let k := { k with parent := update k.parent x grand }
    k.replaceChild grand p (some x)

private theorem Links.replaceChild_parent (old : α) (new : Option α) :
    (k.replaceChild p old new).parent = k.parent := by
  unfold Links.replaceChild
  split
  · rfl
  · split_ifs <;> rfl

private theorem Links.sameAt_replaceChild {x : α} (hx : p ≠ some x) (old : α) (new : Option α) :
    k.SameAt (k.replaceChild p old new) x := by
  unfold Links.replaceChild
  split
  · exact ⟨rfl, rfl, rfl⟩
  next q =>
  have hne : x ≠ q := fun heq => hx (by rw [heq])
  split_ifs
  · exact ⟨update_of_ne hne .., rfl, rfl⟩
  · exact ⟨rfl, update_of_ne hne .., rfl⟩

/-- The pointer into the hole is turned. -/
theorem Links.Around.replaceChild {old : α} {new : Option α} (h : k.Around (some old) frames)
    (hnodup : (before frames ++ after frames).Nodup) (hold : old ∉ before frames ++ after frames) :
    (k.replaceChild (holeParent frames) old new).Around new frames := by
  cases frames with
  | nil => rfl
  | cons f frames =>
    rw [(frames_perm f frames).nodup_iff, nodup_cons, mem_append, not_or] at hnodup
    rw [(frames_perm f frames).mem_iff] at hold
    rcases f with ⟨side, q, other⟩
    obtain ⟨hparent, hchildren, hother, hrest⟩ := h
    -- all other nodes differ from the one whose pointer changes
    have hq : q ∉ other.keys ∧ q ∉ before frames ++ after frames := hnodup.1
    have hkeep : ∀ x, x ≠ q → k.SameAt (k.replaceChild (some q) old new) x := fun x hx =>
      k.sameAt_replaceChild (fun heq => hx (Option.some.inj heq).symm) old new
    have hotherTop : other.top ≠ some old := fun heq =>
      hold (by simp [KeyTree.mem_of_top heq])
    have hroot : (k.replaceChild (some q) old new).root = k.root := by
      simp only [Links.replaceChild]
      split_ifs <;> rfl
    refine ⟨by rw [Links.replaceChild_parent]; exact hparent, ?_, ?_, ?_⟩
    · cases side
      · simp only [holeParent, Links.replaceChild, hchildren.1, if_pos]
        exact ⟨update_self .., hchildren.2⟩
      · simp only [holeParent, Links.replaceChild, hchildren.2, if_neg hotherTop]
        exact ⟨update_self .., trivial⟩
    · exact hother.congr fun x hx => hkeep x fun heq => hq.1 (heq ▸ hx)
    · exact hrest.congr hroot fun x hx => hkeep x fun heq => hq.2 (heq ▸ hx)

private theorem Links.setParent_left : (k.setParent x p).left = k.left := by cases x <;> rfl
private theorem Links.setParent_right : (k.setParent x p).right = k.right := by cases x <;> rfl
private theorem Links.setParent_root : (k.setParent x p).root = k.root := by cases x <;> rfl

private theorem Links.setParent_parent (y : α) :
    (k.setParent x p).parent y = if x = some y then p else k.parent y := by
  cases x with
  | none => rfl
  | some x => simp [Links.setParent, update_apply, eq_comm]

/-- The rotation of a child, before the pointer to the parent is turned. -/
theorem Links.rotateUp_eq {side : Side} {x q : α} (hparent : k.parent x = some q)
    (hchild : k.child side q = some x) (hflip : k.child side.flip q ≠ some x) :
    ∃ k₁ : Links α, k.rotateUp x = k₁.replaceChild (k.parent q) q (some x) ∧ k₁.root = k.root ∧
      (∀ y, k₁.child side y = if y = q then k.child side.flip x else k.child side y) ∧
      (∀ y, k₁.child side.flip y = if y = x then some q else k.child side.flip y) ∧
      ∀ y, k₁.parent y = if y = x then k.parent q else if y = q then some x
        else if k.child side.flip x = some y then some q else k.parent y := by
  cases side <;> dsimp only [Links.child, Side.flip] at hchild hflip ⊢ <;>
    simp only [Links.rotateUp, hparent, hchild, hflip, if_true, if_false] <;>
    refine ⟨_, rfl, ?_, fun y => ?_, fun y => ?_, fun y => ?_⟩ <;>
    simp only [setParent_left, setParent_right, setParent_root, setParent_parent, update_apply] <;>
    rfl

/-- What stands in the frames after a change inside the hole and of the pointer into it. -/
theorem Links.Around.turn {k₁ : Links α} {old : α} {new : Option α} (h : k.Around (some old) frames)
    (hnodup : (before frames ++ after frames).Nodup) (hold : old ∉ before frames ++ after frames)
    (hroot : k₁.root = k.root) (hsame : ∀ y ∈ before frames ++ after frames, k.SameAt k₁ y)
    (ht : k₁.Rep (holeParent frames) t) (htop : t.top = new)
    (hapart : ∀ y ∈ t.keys, y ∉ before frames ++ after frames) :
    (k₁.replaceChild (holeParent frames) old new).Holds (plug frames t) := by
  refine holds_plug.mpr ⟨?_, ?_⟩
  · rw [htop]
    exact (h.congr hroot hsame).replaceChild hnodup hold
  · -- the node whose pointer is turned is in the frames, so it is none of the tree's
    refine ht.congr fun y hy => k₁.sameAt_replaceChild (fun heq => hapart y hy ?_) old new
    cases frames with
    | nil => simp [holeParent] at heq
    | cons f frames =>
      obtain rfl : f.node = y := by simpa [holeParent] using heq
      exact (frames_perm f frames).mem_iff.mpr mem_cons_self

variable {l r other : KeyTree α} {x q : α}

/-- The nodes that a rotation tells apart: the two that change places, the tree that goes from one
    to the other, the trees that stay with them, and those around. -/
structure Distinct (x q : α) (moved kept around : List α) : Prop where
  ne : x ≠ q
  moved_nodup : moved.Nodup
  around_nodup : around.Nodup
  moved_ne : ∀ y ∈ moved, y ≠ x ∧ y ≠ q
  kept_ne : ∀ y ∈ kept, y ≠ x ∧ y ≠ q ∧ y ∉ moved
  around_ne : ∀ y ∈ around, y ≠ x ∧ y ≠ q ∧ y ∉ moved
  apart : ∀ y ∈ kept, y ∉ around

omit [DecidableEq α] in
private theorem Distinct.of_nodup {moved kept around : List α}
    (h : (x :: q :: (moved ++ (kept ++ around))).Nodup) : Distinct x q moved kept around := by
  simp only [nodup_cons, nodup_append', mem_cons, mem_append, not_or] at h
  obtain ⟨⟨hxq, hxm, hxk, hxa⟩, ⟨hqm, hqk, hqa⟩, hmoved, ⟨-, haround, hka⟩, hm⟩ := h
  have hne : ∀ {y z : α} {ys : List α}, y ∈ ys → z ∉ ys → y ≠ z := fun hy hz heq => hz (heq ▸ hy)
  have hmk : ∀ y, y ∈ kept ∨ y ∈ around → y ∉ moved := fun y hy hym => hm hym (mem_append.mpr hy)
  exact ⟨hxq, hmoved, haround, fun y hy => ⟨hne hy hxm, hne hy hqm⟩,
    fun y hy => ⟨hne hy hxk, hne hy hqk, hmk y (.inl hy)⟩,
    fun y hy => ⟨hne hy hxa, hne hy hqa, hmk y (.inr hy)⟩, fun y hy hya => hka hy hya⟩

/-- A child goes up: the tree on its inner side becomes the parent's. -/
theorem Links.Holds.rotateUp {side : Side} {moved kept : KeyTree α} {keys : List α}
    (h : k.Holds (plug (⟨side, q, other⟩ :: frames) (Frame.fill ⟨side, x, moved⟩ kept)))
    (hkeys : (plug (⟨side, q, other⟩ :: frames) (Frame.fill ⟨side, x, moved⟩ kept)).keys = keys)
    (hnodup : keys.Nodup) :
    (k.rotateUp x).Holds
      (plug frames (Frame.fill ⟨side, x, Frame.fill ⟨side, q, other⟩ moved⟩ kept)) ∧
      (plug frames (Frame.fill ⟨side, x, Frame.fill ⟨side, q, other⟩ moved⟩ kept)).keys = keys := by
  refine ⟨?_, hkeys ▸ by cases side <;> simp [keys_plug, Frame.fill, before, after]⟩
  subst hkeys
  obtain ⟨hframes, hfill⟩ := holds_plug.mp h
  obtain ⟨hq, hchild, hflip, hother, haround⟩ := Links.around_cons.mp hframes
  obtain ⟨hx, hkeptTop, hmovedTop, hkept, hmoved⟩ := Links.rep_fill.mp hfill
  have hd : Distinct x q moved.keys (kept.keys ++ other.keys) (before frames ++ after frames) := by
    refine .of_nodup ((Perm.nodup_iff ?_).mp hnodup)
    have hin := Frame.keys_fill_perm ⟨side, x, moved⟩ kept
    have hout := frames_perm ⟨side, q, other⟩ frames
    rw [keys_plug]
    simp only [perm_iff_count, count_append, count_cons] at hin hout ⊢
    intro a
    have := hin a
    have := hout a
    omega
  have hflipNe : k.child side.flip q ≠ some x := fun heq =>
    (hd.kept_ne x (mem_append_right _ (KeyTree.mem_of_top (hflip.symm.trans heq)))).1 rfl
  rw [Frame.top_fill] at hchild
  obtain ⟨k₁, hk, hroot, echild, eflip, eparent⟩ := k.rotateUp_eq hx hchild hflipNe
  rw [hk, hq]
  have hsame : ∀ y, y ≠ x ∧ y ≠ q ∧ y ∉ moved.keys → k.SameAt k₁ y := by
    rintro y ⟨hyx, hyq, hym⟩
    have hyt : k.child side.flip x ≠ some y := fun heq =>
      hym (KeyTree.mem_of_top (hmovedTop.symm.trans heq))
    exact (Links.sameAt_iff side).mpr ⟨by rw [echild, if_neg hyq], by rw [eflip, if_neg hyx],
      by rw [eparent, if_neg hyx, if_neg hyq, if_neg hyt]⟩
  -- the inner tree of the child becomes the tree of the parent on the child's side
  have hmoved : k₁.Rep (some q) moved := by
    refine hmoved.reparent hd.moved_nodup (fun y hy => ?_) (fun y hy => ?_) fun y hy htop => ?_
    · have hy' := hd.moved_ne y hy
      have hs := echild y
      have hf := eflip y
      rw [if_neg hy'.2] at hs
      rw [if_neg hy'.1] at hf
      intro s
      cases side <;> cases s <;> assumption
    · obtain ⟨hyx, hyq⟩ := hd.moved_ne y (KeyTree.mem_of_top hy)
      rw [eparent, if_neg hyx, if_neg hyq, if_pos (hmovedTop.trans hy)]
    · obtain ⟨hyx, hyq⟩ := hd.moved_ne y hy
      rw [eparent, if_neg hyx, if_neg hyq, if_neg (hmovedTop ▸ htop)]
  refine haround.turn hd.around_nodup (fun hmem => (hd.around_ne q hmem).2.1 rfl) hroot
    (fun y hy => hsame y (hd.around_ne y hy)) (Links.rep_fill.mpr ⟨?_, ?_, ?_, ?_,
      Links.rep_fill.mpr ⟨?_, ?_, ?_, hmoved, ?_⟩⟩) Frame.top_fill fun y hy hya => ?_
  · rw [eparent, if_pos rfl, hq]
  · rw [echild, if_neg hd.ne, hkeptTop]
  · rw [eflip, if_pos rfl, Frame.top_fill]
  · exact hkept.congr fun y hy => hsame y (hd.kept_ne y (mem_append_left _ hy))
  · rw [eparent, if_neg hd.ne.symm, if_pos rfl]
  · rw [echild, if_pos rfl, hmovedTop]
  · rw [eflip, if_neg hd.ne.symm, hflip]
  · exact hother.congr fun y hy => hsame y (hd.kept_ne y (mem_append_right _ hy))
  · obtain ⟨hyx, hyq, hym⟩ := hd.around_ne y hya
    have hyk := fun hyk => hd.apart y hyk hya
    rw [mem_append] at hyk
    cases side <;> simp only [Frame.fill, KeyTree.keys_node, mem_append, mem_cons] at hy <;> tauto

end PointerTree
