import Mathlib.Data.List.Range

/-!
# Objects that are allocated and freed

A store of objects, each with an identity that is never used again, so that an access through an old
pointer is not mistaken for one to a new object. Freeing what is not there has no result.
`Objects.Ok` says that every object that was created is there or has been freed once. `pointersTo`
counts the objects whose pointer leads to a given one.
-/

structure Objects (α : Type) where
  object : Nat → Option α
  next : Nat
  /-- How often each object has been freed. -/
  frees : Nat → Nat

namespace Objects

open Function List

variable {α : Type}

def empty : Objects α := ⟨fun _ => none, 0, fun _ => 0⟩

/-- The store with a new object, which gets the identity `next`. -/
def create (o : Objects α) (x : α) : Objects α :=
  { o with object := update o.object o.next (some x), next := o.next + 1 }

def set (o : Objects α) (id : Nat) (x : α) : Objects α :=
  { o with object := update o.object id (some x) }

def free (o : Objects α) (id : Nat) : Option (Objects α) := (o.object id).map fun _ =>
    { o with object := update o.object id none, frees := update o.frees id (o.frees id + 1) }

structure Ok (o : Objects α) : Prop where
  lt_next : ∀ id x, o.object id = some x → id < o.next
  live : ∀ id x, o.object id = some x → o.frees id = 0
  gone : ∀ id, id < o.next → o.object id = none → o.frees id = 1
  beyond : ∀ id, o.next ≤ id → o.frees id = 0

/-- At the start nothing is there, and nothing has been freed. -/
theorem empty_ok : (empty : Objects α).Ok :=
  ⟨fun _ _ h => (nomatch h), fun _ _ _ => rfl,
    fun _ h => absurd h (Nat.not_lt_zero _), fun _ _ => rfl⟩

section

variable {o : Objects α} {id other : Nat} {x y : α}

/-- An object that was replaced. -/
@[simp] theorem object_set_same : (o.set id x).object id = some x := update_self ..

/-- Replacing an object leaves the others. -/
theorem object_set_ne (h : other ≠ id) :
    (o.set id x).object other = o.object other := update_of_ne h ..

/-- A new object leaves the others. -/
theorem object_create_ne (h : other ≠ o.next) :
    (o.create x).object other = o.object other := update_of_ne h ..

/-- A new object is at the next address. -/
@[simp] theorem object_create_same : (o.create x).object o.next = some x := update_self ..

/-- The next address is free. -/
theorem Ok.next_none (h : o.Ok) : o.object o.next = none := by
  cases hnext : o.object o.next with
  | none => rfl
  | some x => exact absurd (h.lt_next _ x hnext) (lt_irrefl _)

/-- A new object has not been freed. -/
theorem Ok.create (h : o.Ok) (x : α) : (o.create x).Ok where
  lt_next id y hid := by
    by_cases heq : id = o.next
    · rw [heq]
      exact Nat.lt_succ_self _
    · rw [object_create_ne heq] at hid
      exact Nat.lt_succ_of_lt (h.lt_next id y hid)
  live id y hid := by
    by_cases heq : id = o.next
    · exact h.beyond id (le_of_eq heq.symm)
    · rw [object_create_ne heq] at hid
      exact h.live id y hid
  gone id hlt hid := by
    by_cases heq : id = o.next
    · rw [heq, object_create_same] at hid
      exact nomatch hid
    · rw [object_create_ne heq] at hid
      have hlt : id < o.next + 1 := hlt
      exact h.gone id (by omega) hid
  beyond id hle := h.beyond id (Nat.le_of_succ_le hle)

/-- An object that is replaced has not been freed. -/
theorem Ok.set (h : o.Ok) (hid : o.object id = some y) (x : α) : (o.set id x).Ok where
  lt_next a b ha := by
    by_cases heq : a = id
    · rw [heq]
      exact h.lt_next id y hid
    · rw [object_set_ne heq] at ha
      exact h.lt_next a b ha
  live a b ha := by
    by_cases heq : a = id
    · rw [heq]
      exact h.live id y hid
    · rw [object_set_ne heq] at ha
      exact h.live a b ha
  gone a hlt ha := by
    by_cases heq : a = id
    · rw [heq, object_set_same] at ha
      exact nomatch ha
    · rw [object_set_ne heq] at ha
      exact h.gone a hlt ha
  beyond := h.beyond

/-- Freeing an object that is there. -/
theorem Ok.free (h : o.Ok) (hid : o.object id = some x) :
    ∃ o', o.free id = some o' ∧ o'.Ok ∧ o'.next = o.next ∧ o'.object id = none ∧
      ∀ a, a ≠ id → o'.object a = o.object a := by
  unfold Objects.free
  rw [hid, Option.map_some]
  have hne : ∀ a, a ≠ id → update o.object id none a = o.object a := fun a ha => update_of_ne ha ..
  have hself : update o.object id none id = none := update_self ..
  have hfrees : ∀ a, a ≠ id → update o.frees id (o.frees id + 1) a = o.frees a :=
    fun a ha => update_of_ne ha ..
  refine ⟨_, rfl, ⟨?_, ?_, ?_, ?_⟩, rfl, hself, hne⟩
  · intro a b ha
    by_cases heq : a = id
    · subst heq
      exact nomatch hself.symm.trans ha
    · exact h.lt_next a b ((hne a heq).symm.trans ha)
  · intro a b ha
    by_cases heq : a = id
    · subst heq
      exact nomatch hself.symm.trans ha
    · exact (hfrees a heq).trans (h.live a b ((hne a heq).symm.trans ha))
  · intro a hlt ha
    by_cases heq : a = id
    · -- It was there, so it had not been freed.
      subst heq
      show update o.frees a (o.frees a + 1) a = 1
      rw [update_self, h.live a x hid]
    · exact (hfrees a heq).trans (h.gone a hlt ((hne a heq).symm.trans ha))
  · intro a hle
    have hlt := h.lt_next id x hid
    have hle : o.next ≤ a := hle
    have heq : a ≠ id := by omega
    exact (hfrees a heq).trans (h.beyond a hle)

end

/-! ## Pointers -/

/-- A pointer of an object leads to `target`. -/
def pointsTo (pointer : α → Option Nat) (o : Objects α) (target id : Nat) : Bool :=
  decide ((o.object id).bind pointer = some target)

def pointersTo (pointer : α → Option Nat) (o : Objects α) (target : Nat) : Nat :=
  (range o.next).countP (pointsTo pointer o target)

/-- Two predicates that differ at one place at most. -/
theorem countP_range_update {p q : Nat → Bool} {a : Nat} (hpq : ∀ i, i ≠ a → q i = p i)
    (n : Nat) (ha : a < n) :
    (range n).countP q + (if p a then 1 else 0) = (range n).countP p + (if q a then 1 else 0) := by
  induction n with
  | zero => exact absurd ha (Nat.not_lt_zero _)
  | succ n ih =>
    rw [range_succ, countP_append, countP_append, countP_singleton, countP_singleton]
    by_cases heq : a = n
    · subst heq
      have hsame : (range a).countP q = (range a).countP p := by
        apply countP_congr
        intro i hi
        rw [hpq i (ne_of_lt (mem_range.mp hi))]
      omega
    · have hn : q n = p n := hpq n fun h => heq h.symm
      rw [hn]
      have := ih (by omega)
      omega

section

variable {pointer : α → Option Nat} {o o' : Objects α} {target id : Nat} {x : α}

/-- A target is counted exactly if some object points to it. -/
theorem pointersTo_pos : 0 < pointersTo pointer o target ↔
    ∃ id x, id < o.next ∧ o.object id = some x ∧ pointer x = some target := by
  unfold pointersTo pointsTo
  rw [countP_pos_iff]
  constructor
  · rintro ⟨id, hid, hpoints⟩
    obtain ⟨x, hx, hpointer⟩ := Option.bind_eq_some_iff.mp (of_decide_eq_true hpoints)
    exact ⟨id, x, mem_range.mp hid, hx, hpointer⟩
  · rintro ⟨id, x, hid, hx, hpointer⟩
    refine ⟨id, mem_range.mpr hid, decide_eq_true ?_⟩
    rw [hx]
    exact hpointer

/-- The object at one identity changes, or goes. -/
theorem pointersTo_change (pointer : α → Option Nat) (target : Nat) (hid : id < o.next)
    (hnext : o'.next = o.next)
    (hsame : ∀ a, a ≠ id → o'.object a = o.object a) :
    pointersTo pointer o' target + (if (o.object id).bind pointer = some target then 1 else 0) =
      pointersTo pointer o target +
        (if (o'.object id).bind pointer = some target then 1 else 0) := by
  have hcount :=
    countP_range_update (p := pointsTo pointer o target) (q := pointsTo pointer o' target) (a := id)
    (fun i hi => by unfold pointsTo; rw [hsame i hi]) o.next hid
  unfold pointersTo
  rw [hnext]
  simpa only [pointsTo, decide_eq_true_eq] using hcount

/-- The pointer of the object stays. -/
theorem pointersTo_same (hnext : o'.next = o.next)
    (hsame : ∀ a, (o'.object a).bind pointer = (o.object a).bind pointer) :
    pointersTo pointer o' target = pointersTo pointer o target := by
  unfold pointersTo pointsTo
  rw [hnext]
  apply countP_congr
  intro a _
  rw [hsame]

/-- A new object that points nowhere is not counted. -/
theorem pointersTo_create (hx : pointer x = none) :
    pointersTo pointer (o.create x) target = pointersTo pointer o target := by
  show (range (o.next + 1)).countP (pointsTo pointer (o.create x) target) = _
  have hnew : pointsTo pointer (o.create x) target o.next = false := by
    unfold pointsTo
    rw [object_create_same, Option.bind_some, hx]
    rfl
  rw [range_succ, countP_append, countP_singleton, hnew]
  apply countP_congr
  intro a ha
  unfold pointsTo
  rw [object_create_ne (ne_of_lt (mem_range.mp ha))]

end

end Objects
