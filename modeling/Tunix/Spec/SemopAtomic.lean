import Tunix.ForStd.Run
import Tunix.Kernel.SysvSem

/-!
# Atomicity and wakeups of `semop`

A call applies all its operations in one section or none, the values stay in their range, and a call
that sleeps has been evaluated after the last change. The last part rests on the generation, a
32-bit number: it holds as long as no call compares generations after a positive multiple of 2 ^ 32
changes.
-/

namespace Tunix.SysvSem

open List

/-! ## Operations on values -/

/-- One operation, if it can be applied. -/
def Op.apply (values : List Int) (op : Op) : Option (List Int) :=
  let value := values.getD op.num 0
  if op.op = 0 then if value = 0 then some values else none
  else if 0 ≤ value + op.op ∧
    value + op.op ≤ semValueMax then some (values.set op.num (value + op.op))
  else none

/-- All operations of a call, in order. -/
def applyAll (ops : List Op) (values : List Int) : Option (List Int) := ops.foldlM Op.apply values

def InRange (values : List Int) : Prop := ∀ v ∈ values, 0 ≤ v ∧ v ≤ semValueMax

private theorem InRange.getD {values : List Int} (h : InRange values) (i : Nat) :
    0 ≤ values.getD i 0 ∧ values.getD i 0 ≤ semValueMax := by
  rw [getD_eq_getElem?_getD]
  cases hi : values[i]? with
  | none => exact ⟨Int.le_refl _, by decide⟩
  | some v => exact h v (mem_of_getElem? hi)

private theorem InRange.set {values : List Int} (h : InRange values) {i : Nat} {v : Int}
    (hv : 0 ≤ v ∧ v ≤ semValueMax) :
    InRange (values.set i v) := by
  intro w hw
  obtain hw | rfl := mem_or_eq_of_mem_set hw
  · exact h w hw
  · exact hv

private theorem applyAll_cons (op : Op) (rest : List Op) (values : List Int) :
    applyAll (op :: rest) values = (op.apply values).bind (applyAll rest) := rfl

/-- The first loop of `try_operations` computes `applyAll`. -/
theorem stage_spec (ops : List Op) : ∀ (index : Nat) {values : List Int}, InRange values →
    match stage ops index values with
    | .done staged =>
      applyAll ops values = some staged ∧ InRange staged ∧ staged.length = values.length
    | .blocked _ | .range => applyAll ops values = none := by
  induction ops with
  | nil => exact fun _ _ h => ⟨rfl, h, rfl⟩
  | cons op rest ih =>
    intro index values h
    obtain ⟨hlow, hhigh⟩ := h.getD op.num
    -- What the cases share in which the value changes.
    have hstore :
        0 ≤ values.getD op.num 0 + op.op → values.getD op.num 0 + op.op ≤ semValueMax → op.op ≠ 0 →
        match stage rest (index + 1) (values.set op.num (values.getD op.num 0 + op.op)) with
        | .done staged =>
          applyAll (op :: rest) values = some staged ∧ InRange staged ∧
            staged.length = values.length
        | .blocked _ | .range => applyAll (op :: rest) values = none := by
      intro h0 h1 hne
      have happly : op.apply values = some (values.set op.num (values.getD op.num 0 + op.op)) := by
        unfold Op.apply
        rw [if_neg hne, if_pos ⟨h0, h1⟩]
      have hrest := ih (index + 1) (h.set (i := op.num) ⟨h0, h1⟩)
      rw [applyAll_cons, happly]
      rw [length_set] at hrest
      exact hrest
    unfold stage
    dsimp only
    split_ifs with hneg hless hzero hne hover
    · -- The value would become negative.
      show applyAll (op :: rest) values = none
      rw [applyAll_cons, Op.apply, if_neg (by omega), if_neg (by omega)]
      rfl
    · exact hstore (by omega) (by omega) (by omega)
    · show applyAll (op :: rest) values = none
      rw [applyAll_cons, Op.apply, if_pos hzero, if_neg hne]
      rfl
    · have hrest := ih (index + 1) h
      have happly : op.apply values = some values := by
        unfold Op.apply
        rw [if_pos hzero, if_pos (not_not.mp hne)]
      rw [applyAll_cons, happly]
      exact hrest
    · show applyAll (op :: rest) values = none
      rw [applyAll_cons, Op.apply, if_neg hzero, if_neg (by omega)]
      rfl
    · exact hstore (by omega) (by omega) hzero

private theorem values_commit {sems : List Sem} {staged : List Int}
    (hlength : staged.length = sems.length) (ops : List Op)
    (pid : Int) : (commit sems staged ops pid).map Sem.value = staged := by
  apply ext_getElem?
  intro i
  unfold commit
  rw [getElem?_map, getElem?_mapIdx, getElem?_zipWith]
  by_cases hi : i < sems.length
  · rw [getElem?_eq_getElem hi, getElem?_eq_getElem (hlength ▸ hi)]
    split_ifs <;> rfl
  · rw [getElem?_eq_none (Nat.le_of_not_lt hi), getElem?_eq_none (by omega)]
    rfl

private theorem values_count (f : Nat → Nat) (op : Op) (sems : List Sem) :
    (count f op sems).map Sem.value = sems.map Sem.value := by
  apply ext_getElem?
  intro i
  unfold count
  rw [getElem?_map, getElem?_map, getElem?_modify]
  cases sems[i]? with
  | none => rfl
  | some sem =>
    split_ifs <;> rfl

/-! ## The invariant -/

/-- The call is counted among the sleepers. -/
def Call.inside (call : Call) : Bool := match call.pc with
  | .entering | .recheck | .waiting | .resume => true
  | .idle | .start => false

/-- What a call that has to wait knows of the set: if nothing has changed since its evaluation, it
    still has to wait. -/
structure Call.Waits (call : Call) (set : SemSet) (changes : Nat) : Prop where
  generation : call.generation = call.seen % 2 ^ 32
  seen : call.seen ≤ changes
  stuck : call.seen = changes → applyAll call.ops set.values = none ∧ set.removed = false
  current : call.asleep = true → call.seen = changes

/-- The values stay, and so does whether the set is removed. -/
theorem Call.Waits.congr {call : Call} {set set' : SemSet} {changes : Nat}
    (h : call.Waits set changes)
    (hvalues : set'.values = set.values) (hremoved : set'.removed = set.removed) :
    call.Waits set' changes where
  generation := h.generation
  seen := h.seen
  stuck heq := by
    rw [hvalues, hremoved]
    exact h.stuck heq
  current := h.current

/-- The invariant of the set and of all calls but those of `out`. -/
structure Core (out : Nat → Prop) (s : State) : Prop where
  range : InRange s.set.values
  generation : s.set.generation = s.changes % 2 ^ 32
  waits : ∀ p, ¬out p → (s.calls p).inside = true → (s.calls p).Waits s.set s.changes
  sleepers : ∃ l : List Nat, l.Nodup ∧ (∀ p, p ∈ l ↔ ¬out p ∧ (s.calls p).inside = true) ∧
    l.length = s.set.sleepers
  freed : s.set.freed = true → s.set.sleepers = 0 ∧ s.set.removed = true

abbrev Inv (s : State) : Prop := Core (fun _ => False) s

section

variable {s : State} {out : Nat → Prop} {p : Nat}

/-- The set is changed, and everybody is woken. -/
theorem Core.changed (h : Core out s) {set : SemSet} (hrange : InRange set.values)
    (hgeneration : set.generation = s.set.generation) (hsleepers : set.sleepers = s.set.sleepers)
    (hfreed : set.freed = s.set.freed) (hremoved : s.set.removed = true → set.removed = true) :
    Core out (s.changed set) where
  range := hrange
  generation := by
    show (set.generation + 1) % 2 ^ 32 = (s.changes + 1) % 2 ^ 32
    rw [hgeneration, h.generation]
    omega
  waits q hq hin := by
    have hw := h.waits q hq hin
    have hseen : (s.calls q).seen ≤ s.changes := hw.seen
    refine ⟨hw.generation, Nat.le_succ_of_le hseen, fun heq => ?_, fun hasleep => ?_⟩
    · have heq : (s.calls q).seen = s.changes + 1 := heq
      omega
    · simp [Call.asleep, State.changed] at hasleep
  sleepers := by
    obtain ⟨l, hnodup, hmem, hlength⟩ := h.sleepers
    exact ⟨l, hnodup, hmem, hlength.trans hsleepers.symm⟩
  freed hf := by
    obtain ⟨hzero, hrem⟩ := h.freed (hfreed.symm.trans hf)
    exact ⟨hsleepers.trans hzero, hremoved hrem⟩

/-- The values stay, and so does what the invariant reads of the set. -/
theorem Core.same (h : Core out s) {set : SemSet} {undos : List Undo}
    (hvalues : set.values = s.set.values)
    (hgeneration : set.generation = s.set.generation) (hsleepers : set.sleepers = s.set.sleepers)
    (hfreed : set.freed = s.set.freed) (hremoved : set.removed = s.set.removed) :
    Core out { s with set := set, undos := undos } where
  range := by
    show InRange set.values
    rw [hvalues]
    exact h.range
  generation := hgeneration.trans h.generation
  waits q hq hin := (h.waits q hq hin).congr hvalues hremoved
  sleepers := by
    obtain ⟨l, hnodup, hmem, hlength⟩ := h.sleepers
    exact ⟨l, hnodup, hmem, hlength.trans hsleepers.symm⟩
  freed hf := by
    obtain ⟨hzero, hrem⟩ := h.freed (hfreed.symm.trans hf)
    exact ⟨hsleepers.trans hzero, hremoved.trans hrem⟩

/-- The call that was replaced. -/
theorem setCall_same (s : State) (p : Nat) (c : Call) :
    (s.setCall p c).calls p = c := Function.update_self ..

/-- A call that is not inside is as good as left out. -/
theorem Core.leaveOut (h : Inv s) (hin : (s.calls p).inside = false) : Core (· = p) s where
  range := h.range
  generation := h.generation
  waits q _ := h.waits q not_false
  sleepers := by
    obtain ⟨l, hnodup, hmem, hlength⟩ := h.sleepers
    refine ⟨l, hnodup, fun q => ?_, hlength⟩
    rw [hmem]
    refine ⟨fun hq => ⟨fun heq => ?_, hq.2⟩, fun hq => ⟨not_false, hq.2⟩⟩
    rw [heq, hin] at hq
    exact nomatch hq.2
  freed := h.freed

/-- A call changes, the one that was left out if there is one, and is inside if it was and was not
    left out. -/
theorem Core.setCall (h : Core out s) (hout : ∀ q, out q → q = p) {c : Call}
    (hin : ¬out p ∧ (s.calls p).inside = true ↔ c.inside = true)
    (hwaits : c.inside = true → c.Waits s.set s.changes) : Inv (s.setCall p c) where
  range := h.range
  generation := h.generation
  waits := (Function.forall_update_iff _ fun _ (x : Call) => ¬False → x.inside = true →
    x.Waits s.set s.changes).mpr
    ⟨fun _ => hwaits, fun q hq _ => h.waits q fun ho => hq (hout q ho)⟩
  sleepers := by
    obtain ⟨l, hnodup, hmem, hlength⟩ := h.sleepers
    refine ⟨l, hnodup,
      (Function.forall_update_iff _ fun q (x : Call) => q ∈ l ↔ ¬False ∧ x.inside = true).mpr
      ⟨?_, fun q hq => ?_⟩, hlength⟩
    · rw [hmem, hin]
      exact (and_iff_right not_false).symm
    · rw [hmem]
      exact and_congr_left fun _ => iff_of_true (fun ho => hq (hout q ho)) not_false
  freed := h.freed

/-- The call that was left out is not inside any more. -/
theorem Core.settle (h : Core (· = p) s) {c : Call} (hc : c.inside = false) : Inv (s.setCall p c) :=
  h.setCall (fun _ => id) (by simp [hc]) (by simp [hc])

/-- A call that is inside moves on and stays inside. -/
theorem Core.move (h : Inv s) {c : Call} (hin : (s.calls p).inside = true) (hc : c.inside = true)
    (hgeneration : c.generation = (s.calls p).generation) (hseen : c.seen = (s.calls p).seen)
    (hops : c.ops = (s.calls p).ops) (hcurrent : c.asleep = true → c.seen = s.changes) :
    Inv (s.setCall p c) := by
  refine Core.setCall h nofun (by simp [hin, hc]) fun _ => ?_
  have hw := h.waits p not_false hin
  refine ⟨?_, ?_, ?_, hcurrent⟩
  · rw [hgeneration, hseen]
    exact hw.generation
  · rw [hseen]
    exact hw.seen
  · rw [hseen, hops]
    exact hw.stuck

/-- A call that was left out has to wait. -/
theorem enter_inv (h : Core (· = p) s) (hstuck : applyAll (s.calls p).ops s.set.values = none)
    (hremoved : s.set.removed = false) (index : Nat) : Inv (enter s p index) := by
  have hvalues : ∀ op, (count (· + 1) op s.set.sems).map Sem.value = s.set.values :=
    fun op => values_count ..
  refine ⟨?_, h.generation, ?_, ?_, ?_⟩
  · show InRange ((count _ _ s.set.sems).map Sem.value)
    rw [hvalues]
    exact h.range
  · refine (Function.forall_update_iff _ fun _ (x : Call) => ¬False → x.inside = true →
      x.Waits _ s.changes).mpr
      ⟨fun _ _ => ?_, fun q hq _ hin => (h.waits q hq hin).congr (hvalues _) rfl⟩
    refine ⟨h.generation, Nat.le_refl _, fun _ => ⟨?_, hremoved⟩, fun hasleep => nomatch hasleep⟩
    show applyAll (s.calls p).ops ((count _ _ s.set.sems).map Sem.value) = none
    rw [hvalues]
    exact hstuck
  -- One sleeper more.
  · obtain ⟨l, hnodup, hmem, hlength⟩ := h.sleepers
    have hnot : p ∉ l := fun hin => ((hmem p).mp hin).1 rfl
    refine ⟨p :: l, nodup_cons.mpr ⟨hnot, hnodup⟩, ?_, by rw [length_cons, hlength]; rfl⟩
    refine (Function.forall_update_iff _ fun q (x : Call) => q ∈ p :: l ↔
      ¬False ∧ x.inside = true).mpr
      ⟨iff_of_true mem_cons_self ⟨not_false, rfl⟩, fun q hq => ?_⟩
    rw [mem_cons, hmem]
    exact ⟨fun hor => ⟨not_false, (hor.resolve_left hq).2⟩, fun hand => .inr ⟨hq, hand.2⟩⟩
  · intro hfreed
    have hrem := (h.freed hfreed).2
    rw [hremoved] at hrem
    exact nomatch hrem

/-! ## Sections -/

/-- What a step of a call does to the values: nothing, and the call does not return zero, or all of
    its operations, and the call returns zero. -/
def Atomic (p : Nat) (s s' : State) : Prop :=
  (s'.set.values = s.set.values ∧ ((s'.calls p).pc = .idle → (s'.calls p).result ≠ 0)) ∨
  (applyAll (s.calls p).ops s.set.values = some s'.set.values ∧ (s'.calls p).pc = .idle ∧
    (s'.calls p).result = 0)

/-- A step that changes only the call, which does not return. -/
theorem Atomic.setCall {c : Call} (hc : c.pc ≠ .idle) : Atomic p s (s.setCall p c) :=
  .inl ⟨rfl, fun hpc => absurd (setCall_same s p c ▸ hpc) hc⟩

private theorem Atomic.fail {s' : State} (hvalues : s'.set.values = s.set.values) {errno : Int}
    (herrno : errno ≠ 0) :
    Atomic p s (s'.finish p errno) := by
  refine .inl ⟨hvalues, fun _ => ?_⟩
  unfold State.finish
  rw [setCall_same]
  exact herrno

private theorem checkUndos_errno {tgid : Int} {count : Nat} {memory : Bool} (ops : List Op) :
    ∀ {undos undos' : List Undo}
    {errno : Int}, checkUndos tgid count memory ops undos = (undos', some errno) → errno ≠ 0 := by
  induction ops with
  | nil => exact fun h => nomatch h
  | cons op rest ih =>
    intro undos undos' errno h
    unfold checkUndos at h
    split_ifs at h with hundo
    · cases hfor : undoFor undos tgid count memory with
      | none =>
        rw [hfor] at h
        cases h
        decide
      | some found =>
        rw [hfor] at h
        dsimp only at h
        split_ifs at h
        · cases h
          decide
        · exact ih h
    · exact ih h

/-- What `try_operations` says of the operations. -/
theorem tryOperations_spec (hrange : InRange s.set.values) (undos : List Undo)
    (ops : List Op) (tgid : Int)
    (memory : Bool) :
    match tryOperations s.set undos ops tgid memory with
    | .blocked _ => applyAll ops s.set.values = none
    | .failed errno _ => errno ≠ 0
    | .done sems changed _ => applyAll ops s.set.values = some (sems.map Sem.value) ∧
        InRange (sems.map Sem.value) ∧ (changed = false → sems.map Sem.value = s.set.values) := by
  have hstage := stage_spec ops 0 hrange
  unfold tryOperations
  cases hs : stage ops 0 s.set.values with
  | blocked index =>
    rw [hs] at hstage
    exact hstage
  | range =>
    show (-34 : Int) ≠ 0
    decide
  | done staged =>
    rw [hs] at hstage
    obtain ⟨happly, hin, hlength⟩ := hstage
    rcases hundos : checkUndos tgid s.set.sems.length memory ops undos with ⟨undos', _ | errno⟩
    case some => exact checkUndos_errno ops hundos
    case none =>
      -- Committing stores the staged values, with the process that did it.
      have hvalues : (commit s.set.sems staged ops tgid).map Sem.value = staged :=
        values_commit (hlength.trans (length_map ..)) ops tgid
      dsimp only
      rw [hvalues]
      refine ⟨happly, hin, fun hsame => ?_⟩
      simpa using hsame

/-- A turn of the loop, in a section in which the call is not counted. -/
theorem evaluate_spec (h : Core (· = p) s) (hremoved : s.set.removed = false) (a : Answers) :
    Inv (evaluate s p a) ∧ Atomic p s (evaluate s p a) := by
  have htry := tryOperations_spec h.range s.undos (s.calls p).ops (s.calls p).tgid a.memory
  unfold evaluate
  dsimp only
  cases hout : tryOperations s.set s.undos (s.calls p).ops (s.calls p).tgid a.memory with
  | blocked index =>
    rw [hout] at htry
    dsimp only
    split_ifs
    · exact ⟨h.settle rfl, Atomic.fail rfl (by decide)⟩
    · exact ⟨h.settle rfl, Atomic.fail rfl (by decide)⟩
    refine ⟨enter_inv h htry hremoved index, .inl ⟨values_count .., ?_⟩⟩
    rw [enter, setCall_same]
    exact nofun
  | failed errno undos =>
    rw [hout] at htry
    have hsame : Core (· = p) { s with undos := undos } := h.same rfl rfl rfl rfl rfl
    exact ⟨hsame.settle rfl, Atomic.fail rfl htry⟩
  | done sems changed undos =>
    rw [hout] at htry
    obtain ⟨happly, hrange, hunchanged⟩ := htry
    have hundos : Core (· = p) { s with undos := undos } := h.same rfl rfl rfl rfl rfl
    -- Waiters are woken only if a value has changed.
    have hinv : Core (· = p) (if changed = true then
        { s with undos := undos }.changed { s.set with sems := sems }
        else { s with undos := undos, set := { s.set with sems := sems } }) := by
      split_ifs with hchanged
      · exact hundos.changed hrange rfl rfl rfl id
      · exact h.same (hunchanged (by simpa using hchanged)) rfl rfl rfl rfl
    refine ⟨hinv.settle rfl, .inr ⟨?_, ?_, ?_⟩⟩
    · rw [happly]
      show some _ = some (State.set (ite _ _ _)).values
      split_ifs <;> rfl
    · unfold State.finish
      rw [setCall_same]
    · unfold State.finish
      rw [setCall_same]

/-- `destroy`, while a call may be left out. -/
theorem destroy_core {out : Nat → Prop} (h : Core out s) : Core out (destroy s) := by
  have hundos : Core out { s with undos := [] } := h.same rfl rfl rfl rfl rfl
  have hchanged : Core out ({ s with undos := [] }.changed { s.set with removed := true }) :=
    hundos.changed h.range rfl rfl rfl fun _ => rfl
  unfold destroy
  dsimp only
  split_ifs with hzero
  · exact ⟨hchanged.range, hchanged.generation,
      fun q hq hin => (hchanged.waits q hq hin).congr rfl rfl,
      hchanged.sleepers, fun _ => ⟨hzero, rfl⟩⟩
  · exact hchanged

private theorem destroy_values (s : State) : (destroy s).set.values = s.set.values := by
  unfold destroy
  dsimp only
  split_ifs <;> rfl

private theorem start_spec (h : Inv s) (hpc : (s.calls p).pc = .start) (a : Answers) :
    Inv (start s p a) ∧ Atomic p s (start s p a) := by
  have hout := Core.leaveOut h (p := p) (by rw [Call.inside, hpc])
  unfold start
  split_ifs with hremoved
  · exact ⟨hout.settle rfl, Atomic.fail rfl (by decide)⟩
  · exact ⟨hout.settle rfl, Atomic.fail rfl (by decide)⟩
  · exact evaluate_spec hout (by simpa using hremoved) a
  · exact ⟨hout.settle rfl, Atomic.fail rfl (by decide)⟩

/-- A call that goes on is not counted any more. -/
theorem Core.uncount (h : Inv s) (hin : (s.calls p).inside = true) (sems : List Sem)
    (hvalues : sems.map Sem.value = s.set.values) :
    Core (· = p) { s with set := { s.set with sleepers := s.set.sleepers - 1, sems := sems } } := by
  obtain ⟨l, hnodup, hmem, hlength⟩ := h.sleepers
  have hp : p ∈ l := (hmem p).mpr ⟨not_false, hin⟩
  constructor
  · show InRange (sems.map Sem.value)
    rw [hvalues]
    exact h.range
  · exact h.generation
  · exact fun q _ hq => (h.waits q not_false hq).congr hvalues rfl
  · refine ⟨l.erase p, hnodup.erase p, fun q => ?_, ?_⟩
    · rw [hnodup.mem_erase_iff, hmem]
      exact ⟨fun hand => ⟨hand.1, hand.2.2⟩, fun hand => ⟨hand.1, not_false, hand.2⟩⟩
    · rw [length_erase_of_mem hp, hlength]
  · -- A set that has been freed has no sleepers.
    intro hfreed
    have hzero := (h.freed hfreed).1
    rw [← hlength, length_eq_zero_iff] at hzero
    rw [hzero] at hp
    exact absurd hp not_mem_nil

private theorem resume_spec (h : Inv s) (hpc : (s.calls p).pc = .resume) (a : Answers) :
    Inv (resume s p a) ∧ Atomic p s (resume s p a) := by
  have hin : (s.calls p).inside = true := by rw [Call.inside, hpc]
  have hvalues := values_count (· - 1) (s.calls p).waited s.set.sems
  have hout := Core.uncount h hin _ hvalues
  unfold resume
  dsimp only
  split_ifs with hremoved hzero
  · exact ⟨(destroy_core hout).settle rfl,
      Atomic.fail (by rw [destroy_values]; exact hvalues) (by decide)⟩
  · exact ⟨hout.settle rfl, Atomic.fail (by exact hvalues) (by decide)⟩
  · exact ⟨hout.settle rfl, Atomic.fail (by exact hvalues) (by decide)⟩
  obtain ⟨hinv, hatomic⟩ := evaluate_spec hout (by simpa using hremoved) a
  refine ⟨hinv, ?_⟩
  obtain ⟨hsame, hresult⟩ | ⟨happly, hdone⟩ := hatomic
  · exact .inl ⟨hsame.trans hvalues, hresult⟩
  refine .inr ⟨?_, hdone⟩
  rw [← happly]
  exact congrArg (applyAll (s.calls p).ops) hvalues.symm

/-! ## Other changes -/

/-- A new value of each semaphore that is in the range if the old one is. -/
theorem inRange_of_getElem? {sems sems' : List Sem} (h : InRange (sems.map Sem.value))
    (hnew : ∀ (i : Nat) sem', sems'[i]? = some sem' → ∃ sem, sems[i]? = some sem ∧
      (sem'.value = sem.value ∨ 0 ≤ sem'.value ∧ sem'.value ≤ semValueMax)) :
      InRange (sems'.map Sem.value) := by
  intro v hv
  obtain ⟨sem', hmem, rfl⟩ := mem_map.mp hv
  obtain ⟨i, hi⟩ := mem_iff_getElem?.mp hmem
  obtain ⟨sem, hsem, heq | hrange⟩ := hnew i sem' hi
  · rw [heq]
    exact h _ (mem_map_of_mem (mem_of_getElem? hsem))
  · exact hrange

private theorem setVal_inv (h : Inv s) (num : Nat) (value tgid : Int) (permitted : Bool) :
    Inv (setVal s num value tgid permitted).1 := by
  unfold setVal
  split_ifs with hremoved hnum hvalue
  · exact h
  · exact h
  · exact h
  · have hundos : Inv { s with undos := clearUndoSlot s.undos num } := h.same rfl rfl rfl rfl rfl
    refine hundos.changed (inRange_of_getElem? h.range ?_) rfl rfl rfl id
    intro i sem' hi
    rw [getElem?_modify] at hi
    obtain ⟨sem, hsem, rfl⟩ := Option.map_eq_some_iff.mp hi
    refine ⟨sem, hsem, ?_⟩
    split_ifs
    · right
      show 0 ≤ value ∧ value ≤ semValueMax
      omega
    · exact .inl rfl
  · exact h

private theorem setAll_inv (h : Inv s) (values : List Nat) (tgid : Int) (permitted : Bool) :
    Inv (setAll s values tgid permitted).1 := by
  unfold setAll
  split_ifs with hremoved hpermitted hvalues
  · exact h
  · exact h
  · have hundos : Inv { s with undos := (range values.length).foldl clearUndoSlot s.undos } :=
      h.same rfl rfl rfl rfl rfl
    refine hundos.changed (inRange_of_getElem? h.range ?_) rfl rfl rfl id
    intro i sem' hi
    rw [getElem?_zipWith] at hi
    cases hsem : s.set.sems[i]? <;> cases hv : values[i]? <;> rw [hsem, hv] at hi <;> cases hi
    case some.some.refl sem value =>
      refine ⟨sem, rfl, .inr ⟨Int.natCast_nonneg value, Int.not_lt.mp fun hlt => hvalues ?_⟩⟩
      rw [any_eq_true]
      exact ⟨value, mem_of_getElem? hv, by simpa using hlt⟩
  · exact h

private theorem rmid_inv (h : Inv s) (owner : Bool) : Inv (rmid s owner).1 := by
  unfold rmid
  split_ifs
  · exact h
  · exact destroy_core h
  · exact h

private theorem exitUndo_inv (h : Inv s) (undo : Undo) : Inv (exitUndo s undo) := by
  unfold exitUndo
  split_ifs
  · exact h
  · refine h.changed (inRange_of_getElem? h.range ?_) rfl rfl rfl id
    intro i sem' hi
    rw [getElem?_mapIdx] at hi
    obtain ⟨sem, hsem, rfl⟩ := Option.map_eq_some_iff.mp hi
    refine ⟨sem, hsem, ?_⟩
    dsimp only
    split_ifs
    · exact .inl rfl
    right
    show 0 ≤ min (max (sem.value + _) 0) semValueMax ∧
      min (max (sem.value + _) 0) semValueMax ≤ semValueMax
    have hmax : (0 : Int) ≤ semValueMax := by decide
    omega
  · exact h

private theorem sysvsemExit_inv (h : Inv s) (tgid : Int) : Inv (sysvsemExit s tgid) := by
  have hfold : ∀ (undos : List Undo) (t : State), Inv t → Inv (undos.foldl exitUndo t) := by
    intro undos
    induction undos with
    | nil => exact fun t ht => ht
    | cons undo rest ih => exact fun t ht => ih _ (exitUndo_inv ht undo)
  exact (hfold _ s h).same rfl rfl rfl rfl rfl

private theorem stir_inv (h : Inv s) (p : Nat) :
    Inv (s.setCall p { s.calls p with blocked := false }) := by
  cases hin : (s.calls p).inside with
  | false => exact (Core.leaveOut h hin).settle hin
  | true =>
    exact Core.move h hin hin rfl rfl rfl fun hasleep => by simp [Call.asleep] at hasleep

/-! ## Runs -/

/-- No call goes to sleep after a positive multiple of 2 ^ 32 changes: when a call compares the
    generations while it is blocked, the number of changes since its evaluation is no such
    multiple. -/
def NoWrap (s : State) : Event → Prop
  | .advance p _ =>
    (s.calls p).pc = .recheck → (s.calls p).prepared = true → (s.calls p).blocked = true →
      s.set.removed = false →
        ¬(0 < s.changes - (s.calls p).seen ∧ (s.changes - (s.calls p).seen) % 2 ^ 32 = 0)
  | _ => True

/-- Every step of a call does all of its operations or none. -/
private theorem advance_spec (h : Inv s) (a : Answers) (hwrap : NoWrap s (.advance p a)) :
    Inv (advance s p a) ∧ ((s.calls p).pc ≠ .idle → Atomic p s (advance s p a)) := by
  unfold advance
  dsimp only
  cases hpc : (s.calls p).pc with
  | idle => exact ⟨h, fun hne => absurd rfl hne⟩
  | start =>
    obtain ⟨hinv, hatomic⟩ := start_spec h hpc a
    exact ⟨hinv, fun _ => hatomic⟩
  | entering =>
    have hin : (s.calls p).inside = true := by rw [Call.inside, hpc]
    exact ⟨Core.move h hin rfl rfl rfl rfl nofun, fun _ => Atomic.setCall nofun⟩
  | recheck =>
    have hin : (s.calls p).inside = true := by rw [Call.inside, hpc]
    have hw := h.waits p not_false hin
    refine ⟨Core.move h hin rfl rfl rfl rfl fun hasleep => ?_, fun _ => Atomic.setCall nofun⟩
    simp only [Call.asleep, Bool.and_eq_true, Bool.not_eq_true', Bool.or_eq_false_iff,
      bne_eq_false_iff_eq] at hasleep
    obtain ⟨⟨⟨_, hprepared⟩, ⟨_, hgeneration⟩, hremoved⟩, hblocked⟩ := hasleep
    -- A call goes to sleep only if nothing has changed since it looked; the generation says so.
    have hnot := hwrap hpc hprepared hblocked hremoved
    have hseen := hw.seen
    rw [h.generation, hw.generation] at hgeneration
    show (s.calls p).seen = s.changes
    omega
  | waiting =>
    have hin : (s.calls p).inside = true := by rw [Call.inside, hpc]
    split_ifs
    · exact ⟨h, fun _ => .inl ⟨rfl, by simp [hpc]⟩⟩
    · exact ⟨Core.move h hin rfl rfl rfl rfl nofun, fun _ => Atomic.setCall nofun⟩
  | resume =>
    obtain ⟨hinv, hatomic⟩ := resume_spec h hpc a
    exact ⟨hinv, fun _ => hatomic⟩

private theorem step_inv (h : Inv s) (event : Event) (hwrap : NoWrap s event) :
    Inv (step s event) := by
  cases event with
  | semop p ops tgid timed =>
    simp only [step]
    split_ifs with hpc
    · have hout : Core (· = p) s := Core.leaveOut h (by rw [Call.inside, hpc])
      unfold sysvsemOp
      split_ifs <;> exact hout.settle rfl
    · exact h
  | advance p answers => exact (advance_spec h answers hwrap).1
  | setVal num value tgid permitted => exact setVal_inv h num value tgid permitted
  | setAll values tgid permitted => exact setAll_inv h values tgid permitted
  | rmid owner => exact rmid_inv h owner
  | exit tgid => exact sysvsemExit_inv h tgid
  | stir p => exact stir_inv h p

private theorem initial_inv (count : Nat) : Inv (State.initial count) where
  range v hv := by
    have hzero : ¬count = 0 ∧ v = 0 := by simpa [State.initial, SemSet.values] using hv
    rw [hzero.2]
    decide
  generation := rfl
  waits _ _ hin := nomatch hin
  sleepers := ⟨[], nodup_nil,
    fun _ => ⟨fun hmem => absurd hmem not_mem_nil, fun hand => nomatch hand.2⟩, rfl⟩
  freed hfreed := nomatch hfreed

/-- The values are in their range, a call that sleeps has been evaluated since the last change and
    can not go on, and the set is not freed under a call. -/
structure Fine (s : State) : Prop where
  range : ∀ v ∈ s.set.values, 0 ≤ v ∧ v ≤ semValueMax
  asleep : ∀ p, (s.calls p).asleep = true →
    (s.calls p).seen = s.changes ∧ applyAll (s.calls p).ops s.set.values = none
  freed : s.set.freed = true → ∀ p, (s.calls p).inside = false

/-- What is asked of a step. -/
structure Correct (s : State) (event : Event) : Prop where
  atomic : ∀ p a, event = .advance p a → (s.calls p).pc ≠ .idle → Atomic p s (step s event)
  fine : Fine (step s event)

private theorem Core.fine (h : Inv s) : Fine s where
  range := h.range
  asleep p hasleep := by
    have hin : (s.calls p).inside = true := by
      unfold Call.asleep at hasleep
      simp only [Bool.and_eq_true, decide_eq_true_eq] at hasleep
      rw [Call.inside, hasleep.1.1.1]
    have hw := h.waits p not_false hin
    exact ⟨hw.current hasleep, (hw.stuck (hw.current hasleep)).1⟩
  freed hfreed p := by
    obtain ⟨l, _, hmem, hlength⟩ := h.sleepers
    rw [(h.freed hfreed).1, length_eq_zero_iff] at hlength
    cases hin : (s.calls p).inside with
    | false => rfl
    | true =>
      have hp := (hmem p).mpr ⟨not_false, hin⟩
      rw [hlength] at hp
      exact absurd hp not_mem_nil

private theorem correct_of_noWrap (h : Inv s) {event : Event} (hwrap : NoWrap s event) :
    Correct s event where
  atomic p a heq hne := by
    subst heq
    exact (advance_spec h a hwrap).2 hne
  fine := Core.fine (step_inv h event hwrap)

/-- A call that compares the generations after a multiple of 2 ^ 32 changes finds them equal and
    sleeps. -/
theorem noWrap_of_correct (h : Inv s) {event : Event} (hcorrect : Correct s event) :
    NoWrap s event := by
  cases event with
  | advance p a =>
    intro hpc hprepared hblocked hremoved hmultiple
    have hin : (s.calls p).inside = true := by rw [Call.inside, hpc]
    have hw := h.waits p not_false hin
    have hgeneration : s.set.generation = (s.calls p).generation := by
      rw [h.generation, hw.generation]
      omega
    have hstep :
        (step s (.advance p a)).calls p = { s.calls p with pc := .waiting, ready := false } := by
      simp [step, advance, hpc, setCall_same, hprepared, hgeneration, hremoved]
    -- If the generations agreed by chance, the call would sleep through a change.
    have hasleep : ((step s (.advance p a)).calls p).asleep = true := by
      rw [hstep]
      simp [Call.asleep, hprepared, hblocked]
    have heq := (hcorrect.fine.asleep p hasleep).1
    rw [hstep] at heq
    have hchanges : (step s (.advance p a)).changes = s.changes := by
      simp [step, advance, hpc, State.setCall]
    rw [hchanges] at heq
    have heq : (s.calls p).seen = s.changes := heq
    omega
  | semop | setVal | setAll | rmid | exit | stir => trivial

end

/-- Every step of a run is as asked exactly if no call in it goes to sleep after a positive multiple
    of 2 ^ 32 changes. -/
theorem semop_correct_iff (count : Nat) (events : List Event) :
    Steps.Always (fun s event => some (step s event)) Correct (State.initial count) events ↔
      Steps.Always (fun s event => some (step s event)) NoWrap (State.initial count) events := by
  refine Steps.Always.iff (fun s event h _ => ⟨noWrap_of_correct h, correct_of_noWrap h⟩) ?_
    (initial_inv count)
    (Steps.Always.of_forall (fun _ _ _ => trivial) _)
  intro s event t h _ hwrap ht
  rw [← Option.some.inj ht]
  exact step_inv h event hwrap

/-! ## The wrap -/

/-- A call that decrements by one. -/
def oneDown : List Op := [⟨0, -1, false, false⟩]

/-- Every answer of the kernel lets the call go on. -/
def calm : Answers := ⟨true, true, false, false⟩

/-- The state after the call has been told to wait, and the value has been set to one `n` times. -/
def waitsWhileSet (n : Nat) : State := (replicate n (Event.setVal 0 1 2 true)).foldl step
    ([.semop 0 oneDown 1 false, .advance 0 calm].foldl step (State.initial 1))

private theorem waitsWhileSet_succ (n : Nat) :
    waitsWhileSet (n + 1) = step (waitsWhileSet n) (.setVal 0 1 2 true) := by
  unfold waitsWhileSet
  rw [replicate_succ', foldl_append]
  rfl

private theorem waitsWhileSet_spec (n : Nat) :
    (waitsWhileSet n).set.removed = false ∧ (waitsWhileSet n).set.generation = n % 2 ^ 32 ∧
    (∃ sem, (waitsWhileSet n).set.sems = [sem] ∧ (0 < n → sem.value = 1)) ∧
    (waitsWhileSet n).calls 0 =
      ⟨.entering, oneDown, 1, false, 0, 0, false, false, false, 0, 0⟩ := by
  induction n with
  | zero => exact ⟨rfl, rfl, ⟨⟨0, 0, 1, 0⟩, rfl, nofun⟩, rfl⟩
  | succ n ih =>
    obtain ⟨hremoved, hgeneration, ⟨sem, hsems, _⟩, hcall⟩ := ih
    have hstep : waitsWhileSet (n + 1) = ({ waitsWhileSet n with
        undos := clearUndoSlot (waitsWhileSet n).undos 0 }.changed
          { (waitsWhileSet n).set with sems := [{ sem with value := 1, pid := 2 }] }) := by
      rw [waitsWhileSet_succ]
      simp [step, setVal, hremoved, hsems, semValueMax]
    rw [hstep]
    refine ⟨hremoved, ?_, ⟨_, rfl, fun _ => rfl⟩, ?_⟩
    · show ((waitsWhileSet n).set.generation + 1) % 2 ^ 32 = (n + 1) % 2 ^ 32
      omega
    · show { (waitsWhileSet n).calls 0 with blocked := false } = _
      rw [hcall]

/-- After a positive multiple of 2 ^ 32 changes the call goes to sleep with its operation
    applicable. -/
theorem asleep_of_multiple {n : Nat} (hpos : 0 < n) (hmultiple : n % 2 ^ 32 = 0) :
    let s := [Event.advance 0 calm, .advance 0 calm].foldl step (waitsWhileSet n)
    (s.calls 0).asleep = true ∧ applyAll (s.calls 0).ops s.set.values = some [0] := by
  obtain ⟨hremoved, hgeneration, ⟨sem, hsems, hvalue⟩, hcall⟩ := waitsWhileSet_spec n
  rw [hmultiple] at hgeneration
  simp [step, advance, hcall, State.setCall, calm, hgeneration, hremoved, Call.asleep, applyAll,
    oneDown, Op.apply,
    SemSet.values, hsems, hvalue hpos, semValueMax]

/-- The value is set to one 2 ^ 32 times between the evaluation of a call that waits to decrement it
    and the call's sleep: the call sleeps although it could go on. -/
theorem semop_sleeps_after_wrap : let s :=
  [Event.advance 0 calm, .advance 0 calm].foldl step (waitsWhileSet (2 ^ 32))
    (s.calls 0).asleep = true ∧ applyAll (s.calls 0).ops s.set.values = some [0] :=
  asleep_of_multiple (Nat.two_pow_pos 32) (Nat.mod_self _)

end Tunix.SysvSem
