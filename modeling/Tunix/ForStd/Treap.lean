import Mathlib.Data.List.Pairwise
import Mathlib.Order.Lattice
import Tunix.ForStd.PointerTree

/-!
# Treaps in memory

Search trees that are heaps on a priority of their nodes. A node is put in as a leaf, found by a
descent from the root, and goes up while its priority is smaller than its parent's; it is taken out
by letting the child of smaller priority go up until the node is a leaf. Both keep the order of the
other nodes and the heap (`Links.Holds.insert`, `Links.Holds.remove`). Loops are given a number of
turns, and as many turns as there are nodes are enough.
-/

namespace PointerTree

open Function List Links KeyTree

variable {α : Type*} {π : Type*} [LinearOrder π]

/-! ## The loops -/

/-- The place below which a descent ends: a node with the side on which it has no child, or the root
    of an empty tree. -/
def Links.descend (k : Links α) (goesLeft : α → Bool) :
    Nat → Option (α × Side) → Option α → Option (α × Side)
  | 0, link, _ => link
  | _ + 1, link, none => link
  | turns + 1, _, some y =>
    if goesLeft y then k.descend goesLeft turns (some (y, .left)) (k.left y)
    else k.descend goesLeft turns (some (y, .right)) (k.right y)

/-- The last node, from left to right, that is not past the place searched for. -/
def Links.lastUpTo (k : Links α) (upTo : α → Bool) : Nat → Option α → Option α → Option α
  | 0, best, _ => best
  | _ + 1, best, none => best
  | turns + 1, best, some y =>
    if upTo y then k.lastUpTo upTo turns (some y) (k.right y)
    else k.lastUpTo upTo turns best (k.left y)

variable [DecidableEq α]

/-- A node becomes a leaf at the place that a descent found. -/
def Links.attach (k : Links α) (link : Option (α × Side)) (x : α) : Links α :=
  let k := { k with
    left := update k.left x none
    right := update k.right x none
    parent := update k.parent x (link.map Prod.fst) }
  match link with
  | none => { k with root := some x }
  | some (p, .left) => { k with left := update k.left p (some x) }
  | some (p, .right) => { k with right := update k.right p (some x) }

/-- A node goes up while its priority is smaller than its parent's. -/
def Links.siftUp (priority : α → π) (x : α) : Nat → Links α → Links α
  | 0, k => k
  | turns + 1, k =>
    match k.parent x with
    | none => k
    | some p => if priority x < priority p then siftUp priority x turns (k.rotateUp x) else k

/-- The child that goes up when a node is taken out. -/
def Links.risingChild (k : Links α) (priority : α → π) (x : α) : Option α :=
  match k.left x, k.right x with
  | none, right => right
  | left, none => left
  | some l, some r => if priority l < priority r then some l else some r

/-- A node goes down until it is a leaf. -/
def Links.sink (priority : α → π) (x : α) : Nat → Links α → Links α
  | 0, k => k
  | turns + 1, k =>
    match k.risingChild priority x with
    | none => k
    | some child => sink priority x turns (k.rotateUp child)

/-- A leaf is cut off. -/
def Links.detach (k : Links α) (x : α) : Links α :=
  let k := k.replaceChild (k.parent x) x none
  { k with parent := update k.parent x none }

/-! ## Searches -/

variable {k : Links α} {p : Option α} {t l r : KeyTree α} {frames : List (Frame α)}
    {x : α} {turns : Nat}

/-- The place below the innermost frame. -/
def linkOf : List (Frame α) → Option (α × Side)
  | [] => none
  | f :: _ => some (f.node, f.side)

omit [DecidableEq α] in
/-- A descent ends in a hole between the nodes for which it goes right and those for which it goes
    left. -/
theorem Links.Rep.descend {goesLeft : α → Bool} (h : k.Rep p t)
    (hmono : t.keys.Pairwise fun a b => goesLeft a → goesLeft b) (hturns : t.keys.length ≤ turns)
    (frames : List (Frame α)) (hbefore : ∀ y ∈ before frames, goesLeft y = false)
    (hafter : ∀ y ∈ after frames, goesLeft y = true) :
    ∃ frames', plug frames' .leaf = plug frames t ∧
      k.descend goesLeft turns (linkOf frames) t.top = linkOf frames' ∧
      (∀ y ∈ before frames', goesLeft y = false) ∧ ∀ y ∈ after frames', goesLeft y = true := by
  induction t generalizing p frames turns with
  | leaf =>
    refine ⟨frames, rfl, ?_, hbefore, hafter⟩
    cases turns <;> rfl
  | node l x r ihl ihr =>
    obtain ⟨-, hleft, hright, hl, hr⟩ := h
    obtain ⟨hml, hmr, hcross⟩ := pairwise_append.mp hmono
    obtain ⟨hxr, hmr⟩ := pairwise_cons.mp hmr
    simp only [keys_node, length_append, length_cons] at hturns
    obtain ⟨turns, rfl⟩ : ∃ n, turns = n + 1 := ⟨turns - 1, by omega⟩
    rw [top_node, descend]
    -- The frames collect the way down: what is left behind on each side.
    split
    · next hx =>
      rw [hleft]
      refine ihl hl hml (by omega) (⟨.left, x, r⟩ :: frames) hbefore fun y hy => ?_
      simp only [after, mem_cons, mem_append] at hy
      obtain rfl | hy | hy := hy
      · exact hx
      · exact hxr y hy hx
      · exact hafter y hy
    · next hx =>
      rw [hright]
      refine ihr hr hmr (by omega) (⟨.right, x, l⟩ :: frames) (fun y hy => ?_) hafter
      simp only [before, mem_cons, mem_append, not_mem_nil, or_false] at hy
      obtain hy | hy | rfl := hy
      · exact hbefore y hy
      · exact Bool.eq_false_iff.mpr fun hy' => hx (hcross y hy x mem_cons_self hy')
      · exact Bool.eq_false_iff.mpr hx

omit [DecidableEq α] in
/-- The search finds the last key up to a bound. -/
theorem Links.Rep.lastUpTo {upTo : α → Bool} (h : k.Rep p t)
    (hmono : t.keys.Pairwise fun a b => upTo b → upTo a) (hturns : t.keys.length ≤ turns)
    (best : Option α) :
    k.lastUpTo upTo turns best t.top = (t.keys.filter upTo).getLast?.or best := by
  induction t generalizing p turns best with
  | leaf => cases turns <;> rfl
  | node l x r ihl ihr =>
    obtain ⟨-, hleft, hright, hl, hr⟩ := h
    obtain ⟨hml, hmr, -⟩ := pairwise_append.mp hmono
    obtain ⟨hxr, hmr⟩ := pairwise_cons.mp hmr
    simp only [keys_node, length_append, length_cons] at hturns
    obtain ⟨turns, rfl⟩ : ∃ n, turns = n + 1 := ⟨turns - 1, by omega⟩
    rw [top_node, lastUpTo, keys_node, filter_append]
    split
    · next hx =>
      rw [hright, ihr hr hmr (by omega), filter_cons_of_pos hx, getLast?_append, getLast?_cons]
      cases (r.keys.filter upTo).getLast? <;> rfl
    · next hx =>
      -- everything to the right is past the place too
      have hnone : r.keys.filter upTo = [] := by
        rw [filter_eq_nil_iff]
        exact fun y hy hy' => hx (hxr y hy hy')
      rw [hleft, ihl hl hml (by omega), filter_cons_of_neg hx, hnone, append_nil]

/-! ## Leaves -/

omit [DecidableEq α] in
/-- Only the root and the links of the keys matter. -/
theorem Links.Holds.congr {k' : Links α} (h : k.Holds t) (hroot : k'.root = k.root)
    (hsame : ∀ y ∈ t.keys, k.SameAt k' y) : k'.Holds t :=
  ⟨hroot.trans h.1, h.2.congr hsame⟩

/-- A new leaf. -/
theorem Links.Holds.attach (h : k.Holds (plug frames .leaf))
    (hnodup : (plug frames .leaf).keys.Nodup) (hx : x ∉ (plug frames .leaf).keys) :
    (k.attach (linkOf frames) x).Holds (plug frames (.node .leaf x .leaf)) := by
  obtain ⟨haround, -⟩ := holds_plug.mp h
  rw [keys_plug, keys_leaf, append_nil] at hnodup hx
  cases frames with
  | nil =>
    refine ⟨rfl, ?_, ?_, ?_, trivial, trivial⟩ <;> simp [attach, linkOf]
  | cons f frames =>
    rw [(frames_perm f frames).nodup_iff, nodup_cons, mem_append, not_or] at hnodup
    rw [(frames_perm f frames).mem_iff, mem_cons, mem_append, not_or, not_or] at hx
    rcases f with ⟨side, q, other⟩
    obtain ⟨hparent, hchildren, hother, hrest⟩ := haround
    obtain ⟨⟨hq, -⟩, hxs⟩ :
        (_ ∧ _) ∧ x ≠ q ∧ x ∉ other.keys ∧ x ∉ before frames ++ after frames := ⟨hnodup, hx⟩
    -- Only the new key and its parent get other links.
    have hkeep : ∀ y, y ≠ q → y ≠ x → k.SameAt (k.attach (some (q, side)) x) y := by
      intro y hyq hyx
      cases side <;>
        exact ⟨by simp [attach, hyq, hyx], by simp [attach, hyq, hyx], by simp [attach, hyx]⟩
    refine holds_plug.mpr ⟨⟨?_, ?_, ?_, ?_⟩, ?_, ?_, ?_, trivial, trivial⟩
    · cases side <;> simp [linkOf, attach, hxs.1.symm, hparent]
    · cases side <;> simp [linkOf, attach, hxs.1.symm, hchildren.2]
    · exact hother.congr fun y hy => hkeep y (fun heq => hq.1 (heq ▸ hy)) fun heq =>
        hxs.2.1 (heq ▸ hy)
    · refine hrest.congr ?_ fun y hy =>
        hkeep y (fun heq => hq.2 (heq ▸ hy)) fun heq => hxs.2.2 (heq ▸ hy)
      cases side <;> rfl
    · cases side <;> simp [linkOf, attach, holeParent]
    · cases side <;> simp [linkOf, attach, hxs.1]
    · cases side <;> simp [linkOf, attach, hxs.1]

private theorem Links.Holds.detach (h : k.Holds (plug frames (.node .leaf x .leaf)))
    (hnodup : (plug frames (.node .leaf x .leaf)).keys.Nodup) :
    (k.detach x).Holds (plug frames .leaf) := by
  obtain ⟨haround, hx, -⟩ := holds_plug.mp h
  have hperm : (x :: (before frames ++ after frames)).Nodup := by
    refine (Perm.nodup_iff ?_).mp hnodup
    rw [keys_plug, perm_iff_count]
    simp only [keys_node, keys_leaf, count_append, count_cons, count_nil]
    omega
  obtain ⟨hmem, hframes⟩ := nodup_cons.mp hperm
  have hcut : (k.replaceChild (holeParent frames) x none).Holds (plug frames .leaf) :=
    haround.turn hframes hmem rfl (fun _ _ => ⟨rfl, rfl, rfl⟩) trivial rfl fun _ hy => by simp at hy
  unfold Links.detach
  rw [hx]
  refine hcut.congr rfl fun y hy => ⟨rfl, rfl, update_of_ne (fun heq => hmem ?_) ..⟩
  rw [keys_plug, keys_leaf, append_nil] at hy
  exact heq ▸ hy

/-! ## Heaps -/

variable {priority : α → π} {keys : List α}

/-- No node has a smaller priority than one above it. -/
def KeyTree.Heap (priority : α → π) : KeyTree α → Prop
  | .leaf => True
  | .node l x r =>
    (∀ y ∈ l.keys ++ r.keys, priority x ≤ priority y) ∧ l.Heap priority ∧ r.Heap priority

omit [DecidableEq α] in
/-- The node at the top has the smallest priority. -/
theorem KeyTree.Heap.le (h : (node l x r).Heap priority) {y : α} (hy : y ∈ (node l x r).keys) :
    priority x ≤ priority y := by
  simp only [keys_node, mem_append, mem_cons] at hy
  obtain hy | rfl | hy := hy
  · exact h.1 y (mem_append_left _ hy)
  · exact le_rfl
  · exact h.1 y (mem_append_right _ hy)

/-- The frames are part of a heap whose other nodes are those in the hole. -/
def HeapAround (priority : α → π) : List α → List (Frame α) → Prop
  | _, [] => True
  | hole, f :: frames => (∀ y ∈ hole ++ f.other.keys, priority f.node ≤ priority y) ∧
      f.other.Heap priority ∧ HeapAround priority (f.node :: (hole ++ f.other.keys)) frames

omit [DecidableEq α] in
/-- With fewer keys in the hole the order around it still holds. -/
theorem HeapAround.mono {hole hole' : List α} (h : HeapAround priority hole frames)
    (hsub : hole' ⊆ hole) : HeapAround priority hole' frames := by
  induction frames generalizing hole hole' with
  | nil => trivial
  | cons f frames ih =>
    obtain ⟨hnode, hother, hrest⟩ := h
    have hkeys : hole' ++ f.other.keys ⊆ hole ++ f.other.keys := by
      intro y hy
      rw [mem_append] at hy ⊢
      exact hy.imp_left fun hy => hsub hy
    exact ⟨fun y hy => hnode y (hkeys hy), hother, ih hrest (cons_subset_cons _ hkeys)⟩

omit [DecidableEq α] in
/-- A node may come into the hole if one that is in it has no larger priority. -/
theorem HeapAround.cons {hole : List α} {x y : α}
    (h : HeapAround priority hole frames) (hy : y ∈ hole)
    (hle : priority y ≤ priority x) : HeapAround priority (x :: hole) frames := by
  induction frames generalizing hole with
  | nil => trivial
  | cons f frames ih =>
    obtain ⟨hnode, hother, hrest⟩ := h
    have hx : priority f.node ≤ priority x := (hnode y (mem_append_left _ hy)).trans hle
    refine ⟨fun z hz => ?_, hother, (ih hrest (mem_cons_of_mem _ (mem_append_left _ hy))).mono ?_⟩
    · rw [cons_append, mem_cons] at hz
      obtain rfl | hz := hz
      · exact hx
      · exact hnode z hz
    · intro z hz
      simp only [mem_cons, mem_append] at hz ⊢
      tauto

omit [DecidableEq α] in
private theorem heap_plug :
    (plug frames t).Heap priority ↔ HeapAround priority t.keys frames ∧ t.Heap priority := by
  induction frames generalizing t with
  | nil => simp [plug, HeapAround]
  | cons f frames ih =>
    rcases f with ⟨side, q, other⟩
    have hperm := Frame.keys_fill_perm ⟨side, q, other⟩ t
    have hkeys : HeapAround priority (Frame.fill ⟨side, q, other⟩ t).keys frames ↔
        HeapAround priority (q :: (t.keys ++ other.keys)) frames :=
      ⟨fun h => h.mono hperm.symm.subset, fun h => h.mono hperm.subset⟩
    have hnode : (∀ y ∈ other.keys ++ t.keys, priority q ≤ priority y) ↔
        ∀ y ∈ t.keys ++ other.keys, priority q ≤ priority y := by
      simp only [mem_append, or_comm]
    rw [plug, ih, hkeys, HeapAround]
    cases side
    · simp only [Frame.fill, Heap]
      tauto
    · simp only [Frame.fill, Heap, hnode]
      tauto

omit [DecidableEq α] in
/-- Only the priorities of the keys matter. -/
theorem KeyTree.Heap.congr {priority' : α → π} (h : t.Heap priority)
    (hsame : ∀ y ∈ t.keys, priority' y = priority y) : t.Heap priority' := by
  induction t with
  | leaf => trivial
  | node l x r ihl ihr =>
    obtain ⟨hx, hl, hr⟩ := h
    simp only [keys_node, mem_append, mem_cons] at hsame
    refine ⟨fun y hy => ?_, ihl hl fun y hy => hsame y (.inl hy),
      ihr hr fun y hy => hsame y (.inr (.inr hy))⟩
    have hy' := mem_append.mp hy
    rw [hsame x (.inr (.inl rfl)), hsame y (by tauto)]
    exact hx y hy

omit [DecidableEq α] in
private theorem length_frames_le (frames : List (Frame α)) :
    frames.length ≤ (before frames ++ after frames).length := by
  induction frames with
  | nil => simp
  | cons f frames ih =>
    rw [(frames_perm f frames).length_eq, length_cons, length_cons, length_append]
    omega

/-- A node goes up to its place. -/
theorem Links.Holds.siftUp (h : k.Holds (plug frames (.node l x r)))
    (hkeys : (plug frames (.node l x r)).keys = keys) (hnodup : keys.Nodup)
    (hl : l.Heap priority) (hr : r.Heap priority)
    (hx : ∀ y ∈ l.keys ++ r.keys, priority x ≤ priority y)
    (haround : HeapAround priority (l.keys ++ r.keys) frames) (hturns : frames.length ≤ turns) :
    ∃ t, (siftUp priority x turns k).Holds t ∧ t.keys = keys ∧ t.Heap priority := by
  induction frames generalizing k l r turns with
  | nil =>
    obtain ⟨hxp, -⟩ := (holds_plug.mp h).2
    refine ⟨.node l x r, ?_, hkeys, hx, hl, hr⟩
    cases turns with
    | zero => exact h
    | succ turns =>
      rw [siftUp, hxp]
      exact h
  | cons f frames ih =>
    rcases f with ⟨side, q, other⟩
    obtain ⟨hxp, -⟩ := (holds_plug.mp h).2
    obtain ⟨hq, hother, hrest⟩ := haround
    obtain ⟨turns, rfl⟩ : ∃ n, turns = n + 1 := ⟨turns - 1, by simp at hturns; omega⟩
    have hrestTurns : frames.length ≤ turns := by simpa using hturns
    simp only [siftUp, hxp, holeParent]
    split
    · next hlt =>
      -- the node trades places with its parent, which is below all that was below the node
      have hbelow :
          ∀ y, y ∈ l.keys ∨ y ∈ r.keys ∨ y = q ∨ y ∈ other.keys → priority x ≤ priority y := by
        simp only [mem_append] at hx hq
        rintro y (hy | hy | rfl | hy)
        · exact hx y (.inl hy)
        · exact hx y (.inr hy)
        · exact hlt.le
        · exact hlt.le.trans (hq y (.inr hy))
      cases side with
      | left =>
        obtain ⟨hup, hkeys⟩ := h.rotateUp hkeys hnodup
        simp only [Frame.fill] at hup hkeys
        exact ih hup hkeys hl ⟨fun y hy => hq y (by grind), hr, hother⟩
          (fun y hy => hbelow y (by grind)) (hrest.mono fun y hy => by grind) hrestTurns
      | right =>
        obtain ⟨hup, hkeys⟩ := h.rotateUp hkeys hnodup
        simp only [Frame.fill] at hup hkeys
        exact ih hup hkeys ⟨fun y hy => hq y (by grind), hother, hl⟩ hr
          (fun y hy => hbelow y (by grind)) (hrest.mono fun y hy => by grind) hrestTurns
    · next hge =>
      have hle := not_lt.mp hge
      refine ⟨_, h, hkeys, heap_plug.mpr ⟨⟨fun y hy => ?_, hother, ?_⟩, hx, hl, hr⟩⟩
      · obtain rfl | hy : y = x ∨ y ∈ l.keys ++ r.keys ++ other.keys := by grind
        · exact hle
        · exact hq y hy
      · -- what is above the parent is above the node
        exact (hrest.cons mem_cons_self hle).mono fun y hy => by grind

/-- A node is a leaf, and what stands around it is part of a heap. -/
def Links.LeafAt (k : Links α) (priority : α → π) (x : α) (keys : List α) : Prop :=
  ∃ frames, k.Holds (plug frames (.node .leaf x .leaf)) ∧
    (plug frames (.node .leaf x .leaf)).keys = keys ∧ HeapAround priority [] frames

/-- Rotations bring a node down to where it has no children. -/
private theorem Links.Holds.sink (h : k.Holds (plug frames (.node l x r)))
    (hkeys : (plug frames (.node l x r)).keys = keys) (hnodup : keys.Nodup)
    (hl : l.Heap priority) (hr : r.Heap priority)
    (haround : HeapAround priority (l.keys ++ r.keys) frames)
    (hturns : (l.keys ++ r.keys).length < turns) :
    (sink priority x turns k).LeafAt priority x keys := by
  induction turns generalizing k l r frames with
  | zero => omega
  | succ turns ih =>
    obtain ⟨-, -, hleft, hright, -⟩ := holds_plug.mp h
    -- the left child goes up
    have hriseLeft : ∀ ll c lr, l = .node ll c lr → (∀ y ∈ r.keys, priority c ≤ priority y) →
        (sink priority x turns (k.rotateUp c)).LeafAt priority x keys := by
      rintro ll c lr rfl hc
      have hplug : k.Holds (plug (⟨.left, x, r⟩ :: frames) (.node ll c lr)) := h
      obtain ⟨hup, hkeys⟩ := hplug.rotateUp hkeys hnodup
      refine ih (show Holds _ (plug (⟨.right, c, ll⟩ :: frames) (.node lr x r)) from hup) hkeys
        hl.2.2 hr ⟨fun y hy => ?_, hl.2.1, haround.mono fun y hy => by grind⟩ (by grind)
      obtain hy | hy : y ∈ r.keys ∨ y ∈ (node ll c lr).keys := by grind
      · exact hc y hy
      · exact hl.le hy
    -- the right child goes up
    have hriseRight : ∀ rl c rr, r = .node rl c rr → (∀ y ∈ l.keys, priority c ≤ priority y) →
        (sink priority x turns (k.rotateUp c)).LeafAt priority x keys := by
      rintro rl c rr rfl hc
      have hplug : k.Holds (plug (⟨.right, x, l⟩ :: frames) (.node rl c rr)) := h
      obtain ⟨hup, hkeys⟩ := hplug.rotateUp hkeys hnodup
      refine ih (show Holds _ (plug (⟨.left, c, rr⟩ :: frames) (.node l x rl)) from hup) hkeys
        hl hr.2.1 ⟨fun y hy => ?_, hr.2.2, haround.mono fun y hy => by grind⟩ (by grind)
      obtain hy | hy : y ∈ l.keys ∨ y ∈ (node rl c rr).keys := by grind
      · exact hc y hy
      · exact hr.le hy
    rw [sink]
    cases l with
    | leaf =>
      cases r with
      | leaf =>
        have hnone : k.risingChild priority x = none := by simp [risingChild, hleft, hright]
        rw [hnone]
        exact ⟨frames, h, hkeys, haround⟩
      | node rl c rr =>
        have hc : k.risingChild priority x = some c := by simp [risingChild, hleft, hright]
        rw [hc]
        exact hriseRight rl c rr rfl (by simp)
    | node ll c lr =>
      cases r with
      | leaf =>
        have hc : k.risingChild priority x = some c := by simp [risingChild, hleft, hright]
        rw [hc]
        exact hriseLeft ll c lr rfl (by simp)
      | node rl d rr =>
        -- the smaller of the two children is below all of the other tree
        by_cases hlt : priority c < priority d
        · have hc : k.risingChild priority x = some c := by simp [risingChild, hleft, hright, hlt]
          rw [hc]
          exact hriseLeft ll c lr rfl fun y hy => hlt.le.trans (hr.le hy)
        · have hd : k.risingChild priority x = some d := by simp [risingChild, hleft, hright, hlt]
          rw [hd]
          exact hriseRight rl d rr rfl fun y hy => (not_lt.mp hlt).trans (hl.le hy)

/-! ## Putting a node in and taking it out -/

omit [DecidableEq α] in
private theorem exists_plug (hx : x ∈ t.keys) (frames : List (Frame α)) :
    ∃ frames' l r, plug frames' (.node l x r) = plug frames t := by
  induction t generalizing frames with
  | leaf => simp at hx
  | node l y r ihl ihr =>
    simp only [keys_node, mem_append, mem_cons] at hx
    obtain hx | rfl | hx := hx
    · exact ihl hx (⟨.left, y, r⟩ :: frames)
    · exact ⟨frames, l, r, rfl⟩
    · exact ihr hx (⟨.right, y, l⟩ :: frames)

variable {pre post : List α}

section

variable (h : k.Holds t) (hheap : t.Heap priority) (hnodup : t.keys.Nodup)
    (hturns : t.keys.length ≤ turns)
include h hheap hnodup hturns

/-- A key is put in between, and the tree is a heap again. -/
theorem Links.Holds.insert {goesLeft : α → Bool} (hx : x ∉ t.keys) (hkeys : t.keys = pre ++ post)
    (hpre : ∀ y ∈ pre, goesLeft y = false) (hpost : ∀ y ∈ post, goesLeft y = true) :
    ∃ t', (Links.siftUp priority x turns (k.attach (k.descend goesLeft turns none k.root) x)).Holds
      t' ∧
      t'.keys = pre ++ x :: post ∧ t'.Heap priority := by
  have hmono : t.keys.Pairwise fun a b => goesLeft a → goesLeft b := by
    rw [hkeys, pairwise_append]
    refine ⟨pairwise_of_forall_mem_list fun a ha b _ ha' => ?_,
      pairwise_of_forall_mem_list fun a _ b hb _ => hpost b hb, fun a _ b hb _ => hpost b hb⟩
    simp [hpre a ha] at ha'
  obtain ⟨frames, hplug, hlink, hbefore, hafter⟩ :=
    h.2.descend hmono hturns [] (by simp [before]) (by simp [after])
  rw [show linkOf ([] : List (Frame α)) = none from rfl, ← h.1] at hlink
  rw [plug] at hplug
  -- the nodes to the left of the hole are those for which the descent goes right
  have hframes : before frames ++ after frames = pre ++ post := by
    rw [← hkeys, ← hplug, keys_plug, keys_leaf, append_nil]
  have hsplit : ∀ ys zs : List α, (∀ y ∈ ys, goesLeft y = false) → (∀ z ∈ zs, goesLeft z = true) →
      (ys ++ zs).filter (fun y => !goesLeft y) = ys ∧ (ys ++ zs).filter goesLeft = zs := by
    intro ys zs hys hzs
    rw [filter_append, filter_append, filter_eq_self.mpr (by simpa using hys),
      filter_eq_nil_iff.mpr (by simpa using hzs), filter_eq_nil_iff.mpr (by simpa using hys),
      filter_eq_self.mpr hzs]
    simp
  obtain ⟨hb, ha⟩ := hsplit _ _ hbefore hafter
  obtain ⟨hb', ha'⟩ := hsplit _ _ hpre hpost
  rw [hframes] at hb ha
  have hbefore : before frames = pre := hb.symm.trans hb'
  have hafter : after frames = post := ha.symm.trans ha'
  rw [hlink]
  rw [← hplug] at h hnodup hx hheap
  have hleaf : (plug frames (.node .leaf x .leaf)).keys = pre ++ x :: post := by
    simp [keys_plug, hbefore, hafter]
  have hnodup' : (pre ++ x :: post).Nodup := by
    rw [nodup_middle, ← hframes]
    simpa [keys_plug] using ⟨by simpa [keys_plug] using hx, by simpa [keys_plug] using hnodup⟩
  have hdepth : frames.length ≤ turns := by
    have := length_frames_le frames
    rw [hframes, ← hkeys] at this
    omega
  exact (h.attach hnodup hx).siftUp hleaf hnodup' trivial trivial (by simp)
    (heap_plug.mp hheap).1 hdepth

/-- A key is taken out, and the tree is a heap again. -/
theorem Links.Holds.remove (hkeys : t.keys = pre ++ x :: post) :
    ∃ t', ((Links.sink priority x turns k).detach x).Holds t' ∧ t'.keys = pre ++ post ∧
      t'.Heap priority := by
  obtain ⟨frames, l, r, hplug⟩ := exists_plug (show x ∈ t.keys by simp [hkeys]) []
  subst hplug
  obtain ⟨haround, -, hl, hr⟩ := heap_plug.mp hheap
  have hlength : (l.keys ++ r.keys).length < turns := by
    rw [keys_plug] at hturns
    simp only [keys_node, length_append, length_cons] at hturns ⊢
    omega
  rw [hkeys] at hnodup
  obtain ⟨frames', hsunk, hkeys', hheap'⟩ := h.sink hkeys hnodup hl hr
    (haround.mono fun y hy => by grind) hlength
  refine ⟨plug frames' .leaf, hsunk.detach (hkeys'.symm ▸ hnodup), ?_,
    heap_plug.mpr ⟨hheap', trivial⟩⟩
  -- the node stands once in the list, so what is around it is determined
  have heq : before frames' ++ x :: after frames' = pre ++ x :: post := by
    rw [← hkeys', keys_plug]
    simp
  have hx : x ∉ before frames' ∧ x ∉ after frames' := by
    rw [← heq, nodup_middle, nodup_cons, mem_append, not_or] at hnodup
    exact hnodup.1
  obtain ⟨hbefore, -, hafter⟩ := (append_cons_inj_of_notMem hx.1 hx.2).mp heq
  rw [keys_plug, keys_leaf, append_nil, hbefore, hafter]

end

end PointerTree
