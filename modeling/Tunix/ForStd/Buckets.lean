import Mathlib.Data.List.Nodup

/-!
# Hash buckets

A table of buckets, in which an item stands at most once: in the bucket of the value that it is
listed under.
-/

namespace ForStd

open Function

variable {ι κ β : Type*}

/-- Each item stands in the bucket of its value, and nowhere if it has none. -/
structure Placed (hash : κ → β) (buckets : β → List ι) (value : ι → Option κ) : Prop where
  mem_iff : ∀ i b, i ∈ buckets b ↔ ∃ v, value i = some v ∧ hash v = b
  nodup : ∀ b, (buckets b).Nodup

namespace Placed

variable {hash : κ → β} {buckets : β → List ι} {value : ι → Option κ} {i : ι}

/-- An empty table places nothing. -/
theorem empty : Placed hash (fun _ => ([] : List ι)) fun _ => none where
  mem_iff _ _ := ⟨fun h => absurd h List.not_mem_nil, nofun⟩
  nodup _ := List.nodup_nil

/-- An item that has a value is in the bucket of the value. -/
theorem mem (h : Placed hash buckets value) {v : κ} (hv : value i = some v) :
    i ∈ buckets (hash v) :=
  (h.mem_iff i _).mpr ⟨v, hv, rfl⟩

private theorem notMem (h : Placed hash buckets value) (hnone : value i = none) (b : β) :
    i ∉ buckets b := by
  intro hmem
  obtain ⟨v, hv, _⟩ := (h.mem_iff i b).mp hmem
  exact nomatch hnone.symm.trans hv

variable [DecidableEq ι]

/-- Nothing changes for an item that stays where it is. -/
theorem congr (h : Placed hash buckets value) {o : Option κ} (ho : o = value i) :
    Placed hash buckets (update value i o) := by
  rw [ho, update_eq_self]
  exact h

variable [DecidableEq β]

/-- An item that has no value is put under a value. -/
theorem insert (h : Placed hash buckets value) (hnone : value i = none) (v : κ) :
    Placed hash (update buckets (hash v) (i :: buckets (hash v))) (update value i (some v)) where
  mem_iff j b := by
    have hmem : j ∈ update buckets (hash v) (i :: buckets (hash v)) b ↔
        (j = i ∧ b = hash v) ∨ j ∈ buckets b := by
      by_cases hb : b = hash v <;> simp [hb]
    rw [hmem]
    by_cases hj : j = i
    · simp [hj, h.notMem hnone, eq_comm]
    · simp [hj, h.mem_iff]
  nodup := (forall_update_iff buckets fun _ l => l.Nodup).mpr
    ⟨List.nodup_cons.mpr ⟨h.notMem hnone _, h.nodup _⟩, fun b _ => h.nodup b⟩

/-- An item is taken out of the bucket of its value. -/
theorem remove (h : Placed hash buckets value) {v : κ} (hv : value i = some v) :
    Placed hash (update buckets (hash v) ((buckets (hash v)).erase i)) (update value i none) where
  mem_iff j b := by
    have hmem : j ∈ update buckets (hash v) ((buckets (hash v)).erase i) b ↔
        j ≠ i ∧ j ∈ buckets b := by
      by_cases hb : b = hash v
      · rw [hb, update_self]
        exact (h.nodup _).mem_erase_iff
      · -- the item is in no other bucket
        have hnot : i ∉ buckets b := fun hi => by
          obtain ⟨u, hu, rfl⟩ := (h.mem_iff i b).mp hi
          exact hb (congrArg hash (Option.some.inj (hu.symm.trans hv)))
        rw [update_of_ne hb]
        exact ⟨fun hj => ⟨fun heq => hnot (heq ▸ hj), hj⟩, And.right⟩
    rw [hmem]
    by_cases hj : j = i
    · simp [hj]
    · simp [hj, h.mem_iff]
  nodup := (forall_update_iff buckets fun _ l => l.Nodup).mpr
    ⟨(h.nodup _).erase i, fun b _ => h.nodup b⟩

end Placed

end ForStd
