import Mathlib.Tactic.SplitIfs
import Tunix.ForStd.Buckets
import Tunix.Kernel.Futex

/-!
# No futex wake is missed

A wait samples the wake counter before it reads the word, and a wake increments the counter before
it walks, so a waiter that is not linked when the wake begins finds the counter changed in its
section. A linked waiter stands in the bucket of its address and in that of its key, so one of the
two walks meets it. But a waiter that a child has made ready keeps its futex fields; a wake that
meets it asleep elsewhere takes it for a waiter, and may miss the one that waits
(`staleEvents_not_delivered`).
-/

namespace Tunix.Futex

open ForStd Function List

variable {translate : Translate} {s : State} {p : Nat} {x : Process}

/-! ## The invariant -/

/-- What the fields of a process say of the call that it sleeps in. -/
structure Process.Sleeps (translate : Translate) (x : Process) (call : Wait) : Prop where
  blocked : x.blocked = true
  address : x.futexWaitAddress = call.address
  bitset : x.futexWaitBitset = call.bitset
  key : x.futexWaitKey = keyOf translate x.memory call.address call.shared
  waitHash : x.waitHashValue = some call.address
  keyHash : x.futexWaitKey ≠ 0 → x.keyHashValue = some x.futexWaitKey

/-- The key that a process carries is the key of its call, and a wake past its first test is to wake
    somebody. -/
def Process.Keyed (translate : Translate) (x : Process) : Prop := match x.pc with
  | .keyed call key => key = keyOf translate x.memory call.address call.shared
  | .wakeKeyed call key | .walking call key =>
    key = keyOf translate x.memory call.address call.shared ∧ 0 < call.maximum
  | _ => True

structure Process.Ok (translate : Translate) (x : Process) : Prop where
  unlinked : x.blocked = false → x.waitHashValue = none ∧ x.keyHashValue = none ∧ x.waiting = none
  active : x.futexWaitActive = x.waiting.isSome
  sleeps : ∀ call, x.waiting = some call → x.Sleeps translate call
  user : x.blocked = true → x.pc = .user
  keyed : x.Keyed translate

structure Inv (translate : Translate) (s : State) : Prop where
  processes : ∀ p, (s.processes p).Ok translate
  waits : Placed waitBucketOf s.waitBuckets fun p => (s.processes p).waitHashValue
  keys : Placed waitBucketOf s.keyBuckets fun p => (s.processes p).keyHashValue
  snapshot : ∀ p, (s.processes p).wakeSnapshot ≤ s.wakeSequence

private theorem update_field {α : Type} (f : Process → α) (processes : Nat → Process)
    (p : Nat) (x : Process) :
    (fun q => f (update processes p x q)) = update (fun q => f (processes q)) p (f x) :=
  comp_update f processes p x

/-- A step that changes one process. -/
theorem Inv.change {s' : State} (h : Inv translate s)
    (hprocesses : s'.processes = update s.processes p x) (hok : x.Ok translate)
    (hwaits : Placed waitBucketOf s'.waitBuckets
      (update (fun q => (s.processes q).waitHashValue) p x.waitHashValue))
    (hkeys : Placed waitBucketOf s'.keyBuckets
      (update (fun q => (s.processes q).keyHashValue) p x.keyHashValue))
    (hsnapshot : x.wakeSnapshot ≤ s'.wakeSequence) (hsequence : s.wakeSequence ≤ s'.wakeSequence) :
    Inv translate s' where
  processes q := by
    rw [hprocesses]
    exact (forall_update_iff _ fun _ (y : Process) => y.Ok translate).mpr
      ⟨hok, fun q _ => h.processes q⟩ q
  waits := by
    rw [hprocesses, update_field]
    exact hwaits
  keys := by
    rw [hprocesses, update_field]
    exact hkeys
  snapshot q := by
    rw [hprocesses]
    exact (forall_update_iff _ fun _ (y : Process) => y.wakeSnapshot ≤ s'.wakeSequence).mpr
      ⟨hsnapshot, fun q _ => Nat.le_trans (h.snapshot q) hsequence⟩ q

/-- A step that changes one process and leaves it where it stands in the tables. -/
theorem Inv.set (h : Inv translate s) (hok : x.Ok translate)
    (hwait : x.waitHashValue = (s.processes p).waitHashValue)
    (hkey : x.keyHashValue = (s.processes p).keyHashValue)
    (hsnapshot : x.wakeSnapshot ≤ s.wakeSequence) :
    Inv translate (s.set p x) :=
  h.change rfl hok (h.waits.congr hwait) (h.keys.congr hkey) hsnapshot (Nat.le_refl _)

/-- A process that is not blocked moves on. -/
theorem Process.Ok.goto (h : x.Ok translate) (hblocked : x.blocked = false) {pc : Pc} {ret : Int}
    {snapshot : Nat}
    (hkeyed : Process.Keyed translate { x with pc := pc, ret := ret, wakeSnapshot := snapshot }) :
    Process.Ok translate { x with pc := pc, ret := ret, wakeSnapshot := snapshot } where
  unlinked := h.unlinked
  active := h.active
  sleeps call hcall := by
    obtain ⟨_, _, hnone⟩ := h.unlinked hblocked
    exact nomatch hnone.symm.trans hcall
  user hb := nomatch hblocked.symm.trans hb
  keyed := hkeyed

/-- A process in a call is not blocked. -/
theorem Inv.notBlocked (h : Inv translate s) (hpc : (s.processes p).pc ≠ .user) :
    (s.processes p).blocked = false :=
  Bool.eq_false_iff.mpr fun hb => hpc ((h.processes p).user hb)

private theorem returns_inv (h : Inv translate s)
    (hblocked : (s.processes p).blocked = false) (ret : Int) :
    Inv translate (s.returns p ret) :=
  h.set ((h.processes p).goto hblocked trivial) rfl rfl (h.snapshot p)

private theorem goto_inv (h : Inv translate s)
    (hblocked : (s.processes p).blocked = false) {pc : Pc}
    (hkeyed : Process.Keyed translate { s.processes p with pc := pc }) :
    Inv translate (s.goto p pc) :=
  h.set ((h.processes p).goto hblocked hkeyed) rfl rfl (h.snapshot p)

/-! ## Steps -/

private theorem check_cases (translate : Translate) (s : State) (p : Nat) (call : Wait) :
    (∃ ret, check translate s p call = s.returns p ret) ∨
      check translate s p call = s.goto p (.checked call) := by
  unfold check
  split
  · exact .inl ⟨_, rfl⟩
  split
  · exact .inl ⟨_, rfl⟩
  split_ifs
  · exact .inl ⟨_, rfl⟩
  · exact .inl ⟨_, rfl⟩
  · exact .inr rfl

/-- A process that stands in no bucket is put in the bucket of its address and, if it has a key, of
    its key. -/
theorem sleep_eq {call : Wait} {key : Nat} (hwait : (s.processes p).waitHashValue = none)
    (hkey : (s.processes p).keyHashValue = none) :
    sleep s p call key = { s with
      waitBuckets :=
        update s.waitBuckets (waitBucketOf call.address)
          (p :: s.waitBuckets (waitBucketOf call.address))
      keyBuckets := if key = 0 then s.keyBuckets
        else update s.keyBuckets (waitBucketOf key) (p :: s.keyBuckets (waitBucketOf key)) }.set p
      { s.processes p with
        pc := .user, blocked := true, futexWaitActive := true, futexWaitAddress := call.address,
        futexWaitKey := key, futexWaitBitset := call.bitset, ret := 0, waiting := some call,
        waitHashValue := some call.address,
        keyHashValue := if key = 0 then none else some key } := by
  by_cases hzero : key = 0 <;>
    simp [sleep, waitLink, keyLink, State.set, update_idem, hwait, hkey, hzero]

private theorem sleep_inv (h : Inv translate s)
    (hblocked : (s.processes p).blocked = false) (call : Wait) :
    Inv translate
      (sleep s p call (keyOf translate (s.processes p).memory call.address call.shared)) := by
  obtain ⟨hwait, hkey, _⟩ := (h.processes p).unlinked hblocked
  rw [sleep_eq hwait hkey]
  apply h.change rfl
  · refine ⟨nofun, rfl, ?_, fun _ => rfl, trivial⟩
    intro c hc
    cases hc
    exact ⟨rfl, rfl, rfl, rfl, rfl, fun hne => if_neg hne⟩
  · exact h.waits.insert hwait call.address
  · show Placed waitBucketOf (if _ then _ else _) (update _ p (if _ then _ else _))
    split_ifs
    · exact h.keys.congr hkey.symm
    · exact h.keys.insert hkey _
  · exact h.snapshot p
  · exact Nat.le_refl _

private theorem waitSection_inv (h : Inv translate s)
    (hblocked : (s.processes p).blocked = false) (call : Wait)
    (interrupted : Bool) :
    Inv translate
      (waitSection s p call (keyOf translate (s.processes p).memory call.address call.shared)
      interrupted) := by
  unfold waitSection
  split_ifs
  · exact returns_inv h hblocked _
  · exact returns_inv h hblocked _
  · exact sleep_inv h hblocked call

/-- A process that stands in no bucket sleeps on a channel. -/
theorem sleepOn_processes (hwait : (s.processes p).waitHashValue = none) (channel : Nat) :
    (waitLink (s.set p { s.processes p with blocked := true }) p channel).processes =
      update s.processes p
        { s.processes p with blocked := true, waitHashValue := some channel } := by
  simp [waitLink, State.set, update_idem, hwait]

/-- A process leaves the table in which it stands under a value or not at all. -/
theorem unlink_placed {buckets : Nat → List Nat} {value : Nat → Option Nat}
    (h : Placed waitBucketOf buckets value) :
    Placed waitBucketOf (unlink buckets p (value p)) (update value p none) := by
  unfold unlink
  split
  case h_1 hnone => exact h.congr hnone.symm
  case h_2 v hv => exact h.remove hv

private theorem wakeToReady_processes (s : State) (p : Nat) :
    (wakeToReady s p).processes = update s.processes p { s.processes p with
      waitHashValue := none, keyHashValue := none, blocked := false, waiting := none } := by
  simp [wakeToReady, waitsUnlink, State.set, update_idem]

private theorem wakeWaiter_processes (s : State) (p : Nat) (ret : Int) :
    (wakeWaiter s p ret).processes = update s.processes p { s.processes p with
      waitHashValue := none, keyHashValue := none, blocked := false, futexWaitActive := false,
      futexWaitAddress := 0, futexWaitKey := 0, ret := ret, waiting := none } := by
  simp [wakeWaiter, wakeToReady_processes, State.set, update_idem]

private theorem wakeToReady_inv (h : Inv translate s)
    (hactive : (s.processes p).futexWaitActive = false) :
    Inv translate (wakeToReady s p) := by
  apply h.change (wakeToReady_processes s p)
  · exact ⟨fun _ => ⟨rfl, rfl, rfl⟩, hactive, nofun, nofun, (h.processes p).keyed⟩
  · exact unlink_placed h.waits
  · exact unlink_placed h.keys
  · exact h.snapshot p
  · exact Nat.le_refl _

private theorem wakeWaiter_inv (h : Inv translate s) (ret : Int) :
    Inv translate (wakeWaiter s p ret) := by
  apply h.change (wakeWaiter_processes s p ret)
  · exact ⟨fun _ => ⟨rfl, rfl, rfl⟩, rfl, nofun, nofun, (h.processes p).keyed⟩
  · simpa [wakeWaiter, wakeToReady, waitsUnlink, State.set] using unlink_placed (p := p) h.waits
  · simpa [wakeWaiter, wakeToReady, waitsUnlink, State.set] using unlink_placed (p := p) h.keys
  · exact h.snapshot p
  · exact Nat.le_refl _

/-! ## The walks -/

section

variable {memory key : Nat} {call : Wake}

private theorem Inv.setHolder (h : Inv translate s) (holder : Option Nat) :
    Inv translate { s with holder := holder } :=
  ⟨h.processes, h.waits, h.keys, h.snapshot⟩

/-- What a walk does that meets the processes of `met`: it wakes the processes of `others`, all of
    them wanted, and leaves the rest alone; if it ends below the maximum it has woken every wanted
    process that it met. -/
structure Walked (translate : Translate) (memory : Nat) (call : Wake) (key : Nat)
    (met : Nat → Prop) (s : State)
    (n : Nat) (r : State × Nat) (others : List Nat) : Prop where
  inv : Inv translate r.1
  nodup : others.Nodup
  count : r.2 = n + others.length
  woken : ∀ x ∈ others, wanted (s.processes x) memory call key ∧
    (r.1.processes x).blocked = false ∧ (r.1.processes x).waiting = none
  same : ∀ x, x ∉ others → r.1.processes x = s.processes x
  sequence : r.1.wakeSequence = s.wakeSequence
  complete : (r.2 : Int) < call.maximum → ∀ x, met x →
    wanted (s.processes x) memory call key → x ∈ others
  bounded : (n : Int) ≤ call.maximum → (r.2 : Int) ≤ call.maximum

private theorem Walked.nil (h : Inv translate s) (n : Nat) {met : Nat → Prop}
    (hmet : (n : Int) < call.maximum → ∀ x, ¬met x) :
    Walked translate memory call key met s n (s, n) [] where
  inv := h
  nodup := nodup_nil
  count := rfl
  woken _ hx := absurd hx not_mem_nil
  same _ _ := rfl
  sequence := rfl
  complete hn x hx := absurd hx (hmet hn x)
  bounded hn := hn

/-- A wanted process is woken. -/
theorem Walked.wake {item n : Nat} (h : Inv translate s)
    (hwanted : wanted (s.processes item) memory call key)
    (hn : (n : Int) < call.maximum) :
    Walked translate memory call key (· = item) s n (wakeWaiter s item 0, n + 1) [item] where
  inv := wakeWaiter_inv h 0
  nodup := nodup_singleton item
  count := rfl
  woken x hx := by
    obtain rfl := mem_singleton.mp hx
    rw [wakeWaiter_processes, update_self]
    exact ⟨hwanted, rfl, rfl⟩
  same x hx := by
    rw [wakeWaiter_processes, update_of_ne fun heq => hx (mem_singleton.mpr heq)]
  sequence := rfl
  complete _ _ hx _ := mem_singleton.mpr hx
  bounded _ := by
    show ((n + 1 : Nat) : Int) ≤ call.maximum
    omega

/-- One walk after another. What the first one has woken is not blocked when the second one
    begins. -/
theorem Walked.trans {met met₁ met₂ : Nat → Prop} {n : Nat} {r r' : State × Nat}
    {first second : List Nat}
    (h₁ : Walked translate memory call key met₁ s n r first)
    (h₂ : Walked translate memory call key met₂ r.1 r.2 r' second)
    (hmet : ∀ x, met x → x ∉ first → wanted (s.processes x) memory call key → met₂ x) :
    Walked translate memory call key met s n r' (first ++ second) := by
  -- A process that was woken is not wanted any more.
  have hdisjoint : ∀ x ∈ first, x ∉ second := by
    intro x hx hx'
    have hb := (h₂.woken x hx').1.1
    rw [(h₁.woken x hx).2.1] at hb
    exact nomatch hb
  refine ⟨h₂.inv, ?_, ?_, ?_, ?_, h₂.sequence.trans h₁.sequence, ?_,
    fun hn => h₂.bounded (h₁.bounded hn)⟩
  · exact nodup_append.mpr ⟨h₁.nodup, h₂.nodup, fun a ha b hb hab => hdisjoint a ha (hab ▸ hb)⟩
  · rw [h₂.count, h₁.count, length_append, add_assoc]
  · intro x hx
    obtain hx | hx := mem_append.mp hx
    · rw [h₂.same x (hdisjoint x hx)]
      exact h₁.woken x hx
    · obtain ⟨hw, hr⟩ := h₂.woken x hx
      rw [h₁.same x fun hx' => hdisjoint x hx' hx] at hw
      exact ⟨hw, hr⟩
  · intro x hx
    rw [h₂.same x fun hx' => hx (mem_append_right _ hx'),
      h₁.same x fun hx' => hx (mem_append_left _ hx')]
  · intro hlt x hx hw
    by_cases hfirst : x ∈ first
    · exact mem_append_left _ hfirst
    · exact mem_append_right _ (h₂.complete hlt x (hmet x hx hfirst hw) (by rwa [h₁.same x hfirst]))

private theorem futexWakeList_spec (memory : Nat) (call : Wake) (key : Nat) (items : List Nat) :
    ∀ (s : State) (n : Nat), Inv translate s → ∃ others,
      Walked translate memory call key (· ∈ items) s n
        (futexWakeList memory call key items s n) others := by
  induction items with
  | nil => exact fun s n h => ⟨[], Walked.nil h n fun _ _ => not_mem_nil⟩
  | cons item rest ih =>
    intro s n h
    unfold futexWakeList
    split_ifs with hn hwanted
    · obtain ⟨others, hrest⟩ := ih (wakeWaiter s item 0) (n + 1) (wakeWaiter_inv h 0)
      exact ⟨item :: others, (Walked.wake h hwanted hn).trans hrest fun x hx hne _ =>
        (mem_cons.mp hx).resolve_left fun heq => hne (mem_singleton.mpr heq)⟩
    · obtain ⟨others, hrest⟩ := ih s n h
      refine ⟨others, { hrest with complete := fun hlt x hx hw => hrest.complete hlt x ?_ hw }⟩
      exact (mem_cons.mp hx).resolve_left fun heq => hwanted (heq ▸ hw)
    · exact ⟨[], Walked.nil h n fun hlt => absurd hlt hn⟩

/-- The processes that the walks meet unless the maximum stops them. -/
def Met (s : State) (call : Wake) (key : Nat) (x : Nat) : Prop :=
  (s.processes x).waitHashValue = some call.address ∨ key ≠ 0 ∧
    (s.processes x).keyHashValue = some key

private theorem walk_spec (h : Inv translate s) (memory : Nat) (call : Wake) (key : Nat) :
    ∃ others, Walked translate memory call key (Met s call key) s 0
      (walk s memory call key) others := by
  obtain ⟨first, h₁⟩ :=
    futexWakeList_spec memory call key (s.waitBuckets (waitBucketOf call.address)) s 0 h
  unfold walk
  generalize futexWakeList memory call key (s.waitBuckets (waitBucketOf call.address)) s 0 = r at h₁
  dsimp only
  split_ifs with hkey
  · obtain ⟨second, h₂⟩ :=
      futexWakeList_spec memory call key (r.1.keyBuckets (waitBucketOf key)) r.1 r.2 h₁.inv
    refine ⟨first ++ second, h₁.trans h₂ fun x hmet hx hw => ?_⟩
    obtain haddress | ⟨_, hkeyed⟩ := hmet
    · exact absurd (h₁.complete hkey.2 x (h.waits.mem haddress) hw) hx
    apply h₁.inv.keys.mem
    rw [h₁.same x hx]
    exact hkeyed
  · refine ⟨first, { h₁ with complete := fun hlt x hmet hw => ?_ }⟩
    obtain haddress | ⟨hne, _⟩ := hmet
    · exact h₁.complete hlt x (h.waits.mem haddress) hw
    · exact absurd ⟨hne, hlt⟩ hkey

private theorem finish_inv (h : Inv translate s) (hpc : (s.processes p).pc = .walking call key) :
    Inv translate (finish s p call key) := by
  obtain ⟨others, hwalk⟩ := walk_spec h (s.processes p).memory call key
  have hblocked : (s.processes p).blocked = false := h.notBlocked (by rw [hpc]; nofun)
  have hsame := hwalk.same p fun hmem => nomatch hblocked.symm.trans (hwalk.woken p hmem).1.1
  apply returns_inv (hwalk.inv.setHolder none)
  show ((walk s (s.processes p).memory call key).1.processes p).blocked = false
  rw [hsame]
  exact hblocked

end

/-! ## Runs -/

private theorem Inv.keyed_of (h : Inv translate s) {pc : Pc} (hpc : (s.processes p).pc = pc) :
    Process.Keyed translate { s.processes p with pc := pc } := by
  subst hpc
  exact (h.processes p).keyed

/-- Every step of a call keeps the invariant. -/
private theorem advance_inv (h : Inv translate s) (p : Nat) (interrupted : Bool) :
    Inv translate (advance translate s p interrupted) := by
  -- One case for each place where the process can be.
  unfold advance
  split
  case h_1 => exact h
  case h_2 call hpc =>
    have hblocked := h.notBlocked (p := p) (by rw [hpc]; nofun)
    obtain ⟨ret, hret⟩ | hgoto := check_cases translate s p call
    · exact hret ▸ returns_inv h hblocked ret
    · exact hgoto ▸ goto_inv h hblocked trivial
  case h_3 call hpc => exact goto_inv h (h.notBlocked (by rw [hpc]; nofun)) rfl
  case h_4 call key hpc =>
    split
    · exact h
    have hkey : key = keyOf translate (s.processes p).memory call.address call.shared :=
      h.keyed_of hpc
    rw [hkey]
    exact waitSection_inv h (h.notBlocked (by rw [hpc]; nofun)) call interrupted
  case h_5 call hpc =>
    have hblocked := h.notBlocked (p := p) (by rw [hpc]; nofun)
    split_ifs
    · exact returns_inv h hblocked 0
    · exact goto_inv h hblocked ⟨rfl, by omega⟩
  case h_6 call key hpc =>
    split
    · exact h
    have hblocked := h.notBlocked (p := p) (by rw [hpc]; nofun)
    have hkeyed : Process.Keyed translate { s.processes p with pc := .walking call key } :=
      (h.keyed_of hpc :)
    apply h.change rfl ((h.processes p).goto hblocked hkeyed)
    · exact h.waits.congr rfl
    · exact h.keys.congr rfl
    · exact Nat.le_succ_of_le (h.snapshot p)
    · exact Nat.le_succ _
  case h_7 call key hpc => exact finish_inv h hpc

private theorem Process.idle_iff : x.idle = true ↔ x.pc = .user ∧ x.blocked = false := by
  unfold Process.idle
  cases x.pc <;> simp

/-- Every event keeps the invariant. -/
private theorem step_inv (h : Inv translate s) {event : Event} (hspares : s.Spares event) :
    Inv translate (step translate s event) := by
  cases event with
  | wait p call =>
    simp only [step]
    split_ifs with hidle
    · exact h.set ((h.processes p).goto (Process.idle_iff.mp hidle).2 trivial) rfl
        rfl (Nat.le_refl _)
    · exact h
  | wake p call =>
    simp only [step]
    split_ifs with hidle
    · exact h.set ((h.processes p).goto (Process.idle_iff.mp hidle).2 trivial) rfl
        rfl (Nat.le_refl _)
    · exact h
  | advance p interrupted => exact advance_inv h p interrupted
  | store physical value => exact ⟨h.processes, h.waits, h.keys, h.snapshot⟩
  | sleepOn p channel =>
    simp only [step]
    split_ifs with hidle
    -- A process that sleeps on something else is in the first table only.
    · obtain ⟨huser, hblocked⟩ := Process.idle_iff.mp hidle.1
      obtain ⟨hwait, hkey, hwaiting⟩ := (h.processes p).unlinked hblocked
      have hprocesses := sleepOn_processes hwait channel
      unfold waitLink at hprocesses ⊢
      rw [if_neg (by simp [State.set, hwait])] at hprocesses ⊢
      apply h.change hprocesses
      · refine ⟨nofun, (h.processes p).active, ?_, fun _ => huser, (h.processes p).keyed⟩
        exact fun call hcall => nomatch hwaiting.symm.trans hcall
      · exact h.waits.insert hwait channel
      · exact h.keys.congr rfl
      · exact h.snapshot p
      · exact Nat.le_refl _
    · exact h
  | leave p ret =>
    simp only [step]
    split_ifs
    · exact wakeWaiter_inv h ret
    · exact h
  | ready p =>
    simp only [step]
    split_ifs
    · exact wakeToReady_inv h hspares
    · exact h
  | bump => exact ⟨h.processes, h.waits, h.keys, fun p => Nat.le_succ_of_le (h.snapshot p)⟩

private theorem initial_inv (memory : Nat → Nat) (word : Nat → UInt32) :
    Inv translate (State.initial memory word) where
  processes _ := ⟨fun _ => ⟨rfl, rfl, rfl⟩, rfl, nofun, nofun, trivial⟩
  waits := Placed.empty
  keys := Placed.empty
  snapshot _ := Nat.le_refl _

private theorem run_inv (events : List Event) :
    ∀ {s : State}, Inv translate s → Undisturbed translate s events →
    Inv translate (run translate s events) := by
  induction events with
  | nil => exact fun h _ => h
  | cons event events ih => exact fun h hspares => ih (step_inv h hspares.1) hspares.2

/-! ## A waiter that is not linked -/

/-- The process sleeps in no wait, and if it is in one the counter has changed since its sample. -/
structure Missed (s : State) (w : Nat) : Prop where
  waiting : (s.processes w).waiting = none
  snapshot : (s.processes w).pc.inWait = true → (s.processes w).wakeSnapshot < s.wakeSequence

section

variable {w : Nat}

/-- Replacing a process leaves the others. -/
theorem set_ne (s : State) {q : Nat} (x : Process) (hne : w ≠ q) :
    (s.set q x).processes w = s.processes w :=
  update_of_ne hne ..

/-- A step leaves the process as it is. -/
theorem Missed.other (h : Missed s w) {s' : State} (hsame : s'.processes w = s.processes w)
    (hsequence : s.wakeSequence ≤ s'.wakeSequence) : Missed s' w where
  waiting := by
    rw [hsame]
    exact h.waiting
  snapshot := by
    rw [hsame]
    exact fun hin => Nat.lt_of_lt_of_le (h.snapshot hin) hsequence

/-- A step changes one process. If it is this one, it moves on in its call, or ends it. -/
theorem Missed.change (h : Missed s w) {s' : State} {q : Nat} {x : Process}
    (hprocesses : s'.processes = update s.processes q x)
    (hsequence : s.wakeSequence ≤ s'.wakeSequence)
    (hself : w = q → x.waiting = none ∧ (x.pc.inWait = true →
      (s.processes q).pc.inWait = true ∧ x.wakeSnapshot = (s.processes q).wakeSnapshot)) :
      Missed s' w := by
  by_cases hne : w = q
  · subst hne
    obtain ⟨hwaiting, hin⟩ := hself rfl
    have hx : s'.processes w = x := by rw [hprocesses, update_self]
    constructor
    · rw [hx]
      exact hwaiting
    · rw [hx]
      intro hinWait
      obtain ⟨hbefore, hsame⟩ := hin hinWait
      rw [hsame]
      exact Nat.lt_of_lt_of_le (h.snapshot hbefore) hsequence
  · apply h.other _ hsequence
    rw [hprocesses, update_of_ne hne]

/-- A process moves on, and is in a wait only if it was. -/
theorem Missed.goto (h : Missed s w) {q : Nat} {pc : Pc}
    (hpc : pc.inWait = true → (s.processes q).pc.inWait = true) : Missed (s.goto q pc) w :=
  h.change rfl (Nat.le_refl _) fun heq => ⟨heq ▸ h.waiting, fun hin => ⟨hpc hin, rfl⟩⟩

private theorem Missed.returns (h : Missed s w) (q : Nat) (ret : Int) :
    Missed (s.returns q ret) w :=
  h.change rfl (Nat.le_refl _) fun heq => ⟨heq ▸ h.waiting, nofun⟩

section

variable (hm : Missed s w) (h : Inv translate s)
include hm h

/-- A walk wakes only processes that sleep in a wait. -/
theorem Missed.of_walk (memory : Nat) (call : Wake) (key : Nat) :
    Missed (walk s memory call key).1 w := by
  obtain ⟨others, hwalk⟩ := walk_spec h memory call key
  apply hm.other (hwalk.same w ?_) (Nat.le_of_eq hwalk.sequence.symm)
  intro hmem
  have hactive := (hwalk.woken w hmem).1.2.1
  rw [(h.processes w).active, hm.waiting] at hactive
  exact nomatch hactive

/-- Whatever the process itself or another one does next, it does not go to sleep. -/
theorem Missed.advance (q : Nat) (interrupted : Bool) :
    Missed (advance translate s q interrupted) w := by
  unfold Futex.advance
  split
  case h_1 => exact hm
  case h_2 call hpc =>
    obtain ⟨ret, hret⟩ | hgoto := check_cases translate s q call
    · exact hret ▸ hm.returns q ret
    · exact hgoto ▸ hm.goto fun _ => by rw [hpc]; rfl
  case h_3 call hpc => exact hm.goto fun _ => by rw [hpc]; rfl
  case h_4 call key hpc =>
    split
    · exact hm
    unfold waitSection
    split_ifs with hinterrupted hsequence
    · exact hm.returns q _
    · exact hm.returns q _
    -- This is the branch in which the process itself would sleep.
    have hne : w ≠ q := by
      intro heq
      have hlt := hm.snapshot (by rw [heq, hpc]; rfl)
      rw [heq] at hlt
      omega
    obtain ⟨hwait, hkey, _⟩ := (h.processes q).unlinked (h.notBlocked (by rw [hpc]; nofun))
    rw [sleep_eq hwait hkey]
    exact hm.other (set_ne _ _ hne) (Nat.le_refl _)
  case h_5 call hpc =>
    split_ifs
    · exact hm.returns q _
    · exact hm.goto nofun
  case h_6 call key hpc =>
    split
    · exact hm
    · exact hm.change rfl (Nat.le_succ _) fun heq => ⟨heq ▸ hm.waiting, nofun⟩
  case h_7 call key hpc =>
    have hwalk := hm.of_walk h (s.processes q).memory call key
    exact hwalk.change rfl (Nat.le_refl _) fun heq => ⟨heq ▸ hwalk.waiting, nofun⟩

/-- The process does not go to sleep in a wait before it begins another one. -/
theorem Missed.step {event : Event} (hnew : ∀ call, event ≠ .wait w call) :
    Missed (step translate s event) w := by
  -- Only the process itself can begin to wait again; all else leaves it where it is.
  cases event with
  | wait p call =>
    have hne : w ≠ p := fun heq => hnew call (by rw [heq])
    simp only [Futex.step]
    split_ifs
    · exact hm.other (set_ne s _ hne) (Nat.le_refl _)
    · exact hm
  | wake p call =>
    simp only [Futex.step]
    split_ifs
    · exact hm.change rfl (Nat.le_refl _) fun heq => ⟨heq ▸ hm.waiting, nofun⟩
    · exact hm
  | advance p interrupted => exact hm.advance h p interrupted
  | store physical value => exact hm.other rfl (Nat.le_refl _)
  | sleepOn p channel =>
    simp only [Futex.step]
    split_ifs with hidle
    · obtain ⟨hwait, _⟩ := (h.processes p).unlinked (Process.idle_iff.mp hidle.1).2
      apply hm.change (sleepOn_processes hwait channel)
      · unfold waitLink
        split_ifs <;> exact Nat.le_refl _
      · exact fun heq => ⟨heq ▸ hm.waiting, fun hin => ⟨hin, rfl⟩⟩
    · exact hm
  | leave p ret =>
    simp only [Futex.step]
    split_ifs
    · exact hm.change (wakeWaiter_processes s p ret) (Nat.le_refl _) fun _ =>
        ⟨rfl, fun hin => ⟨hin, rfl⟩⟩
    · exact hm
  | ready p =>
    simp only [Futex.step]
    split_ifs
    · exact hm.change (wakeToReady_processes s p) (Nat.le_refl _) fun _ =>
        ⟨rfl, fun hin => ⟨hin, rfl⟩⟩
    · exact hm
  | bump => exact hm.other rfl (Nat.le_succ _)

end

private theorem Missed.run (events : List Event) : ∀ {s : State}, Missed s w → Inv translate s →
    Undisturbed translate s events → (∀ call, Event.wait w call ∉ events) →
      Missed (run translate s events) w := by
  induction events with
  | nil => exact fun hm _ _ _ => hm
  | cons event events ih =>
    intro s hm h hspares hnew
    have hstep := hm.step h fun call heq => hnew call (heq ▸ mem_cons_self)
    exact ih hstep (step_inv h hspares.1) hspares.2 fun call hmem =>
      hnew call (mem_cons_of_mem _ hmem)

end

/-! ## A linked waiter -/

/-- A key other than zero is the physical address of a shared word. -/
theorem mapping_of_key {memory address : Nat} {shared : Bool}
    (hkey : keyOf translate memory address shared ≠ 0) :
    shared = true ∧ ∃ mapping : Mapping, mapping.shared = true ∧
      translate memory address = some mapping ∧
      keyOf translate memory address shared = mapping.physical := by
  cases shared with
  | false => exact absurd rfl hkey
  | true =>
    refine ⟨rfl, ?_⟩
    have heq : keyOf translate memory address true =
        futexSharedKey translate memory address := if_pos rfl
    rw [heq] at hkey ⊢
    unfold futexSharedKey at hkey ⊢
    cases hmapping : translate memory address with
    | none =>
      rw [hmapping] at hkey
      exact absurd rfl hkey
    | some mapping =>
      rw [hmapping] at hkey
      cases hshared : mapping.shared with
      | false => simp [hshared] at hkey
      | true => exact ⟨mapping, hshared, rfl, by simp [hshared]⟩

private theorem key_of_mapping {memory address : Nat} {mapping : Mapping}
    (hmapping : translate memory address = some mapping)
    (hshared : mapping.shared = true) : keyOf translate memory address true = mapping.physical := by
  simp [keyOf, futexSharedKey, hmapping, hshared]

/-- The test of the walk finds the waiters on the word, in the bucket of the address or of the
    key. -/
theorem named_iff {wait : Wait} {wake : Wake} {waker : Nat} (h : x.Sleeps translate wait) :
    named x waker wake (keyOf translate waker wake.address wake.shared) ↔
      SameWord translate x.memory wait waker wake := by
  unfold named SameWord
  rw [h.address, h.key]
  constructor
  · rintro (⟨hne, heq⟩ | hsame)
    · right
      obtain ⟨hwake, m, hm, hmt, hmk⟩ := mapping_of_key hne
      obtain ⟨hwait, m', hm', hmt', hmk'⟩ := mapping_of_key (heq ▸ hne)
      -- Both mappings are shared and have the physical address of the key.
      have hmm : m' = m := by
        cases m
        cases m'
        simp_all
      exact ⟨hwait, hwake, m, hm, hmm ▸ hmt', hmt⟩
    · exact .inl hsame
  · rintro (hsame | ⟨hwait, hwake, m, hm, hmt, hmt'⟩)
    · exact .inr hsame
    · left
      rw [hwait, hwake, key_of_mapping hmt hm, key_of_mapping hmt' hm]
      exact ⟨Nat.ne_of_gt m.pos, rfl⟩

/-- A process sleeps in a wait on the word of a wake, with a bitset that matches. -/
def WaitsFor (translate : Translate) (s : State) (w q : Nat) (wake : Wake) : Prop :=
  ∃ wait, (s.processes w).waiting = some wait ∧
    SameWord translate (s.processes w).memory wait (s.processes q).memory wake ∧
      wait.bitset &&& wake.bitset ≠ 0

section

variable {w q : Nat} {wake : Wake} {key : Nat}

private theorem Inv.waitsFor_iff (h : Inv translate s)
    (hpc : (s.processes q).pc = .walking wake key) :
    WaitsFor translate s w q wake ↔ wanted (s.processes w) (s.processes q).memory wake key := by
  have hkey : key = keyOf translate (s.processes q).memory wake.address wake.shared :=
    (h.keyed_of hpc).1
  rw [hkey]
  constructor
  · rintro ⟨wait, hwait, hword, hbitset⟩
    have hsleeps := (h.processes w).sleeps wait hwait
    refine ⟨hsleeps.blocked, ?_, (named_iff hsleeps).mpr hword, ?_⟩
    · rw [(h.processes w).active, hwait]
      rfl
    · rw [hsleeps.bitset]
      exact hbitset
  · rintro ⟨_, hactive, hnamed, hbitset⟩
    rw [(h.processes w).active] at hactive
    obtain ⟨wait, hwait⟩ := Option.isSome_iff_exists.mp hactive
    have hsleeps := (h.processes w).sleeps wait hwait
    rw [hsleeps.bitset] at hbitset
    exact ⟨wait, hwait, (named_iff hsleeps).mp hnamed, hbitset⟩

/-- The walks meet a process that they are for. -/
theorem Inv.met (h : Inv translate s)
    (hwanted : wanted (s.processes w) (s.processes q).memory wake key) :
    Met s wake key w := by
  obtain ⟨_, hactive, hnamed, _⟩ := hwanted
  rw [(h.processes w).active] at hactive
  obtain ⟨wait, hwait⟩ := Option.isSome_iff_exists.mp hactive
  have hsleeps := (h.processes w).sleeps wait hwait
  obtain ⟨hne, heq⟩ | ⟨_, haddress⟩ := hnamed
  · right
    rw [← heq]
    exact ⟨heq ▸ hne, hsleeps.keyHash (heq ▸ hne)⟩
  · left
    rw [hsleeps.waitHash, ← hsleeps.address, haddress]

/-- A process is woken, or `maximum` others that the wake is for. -/
def Delivered (translate : Translate) (s : State) (w q : Nat) (wake : Wake) (s' : State) : Prop :=
  (s'.processes w).blocked = false ∨
    ∃ others : List Nat, others.Nodup ∧ (others.length : Int) = wake.maximum ∧ w ∉ others ∧
      ∀ x ∈ others, WaitsFor translate s x q wake ∧ (s'.processes x).blocked = false

/-- A process that the wake is for is woken, unless the wake has woken `maximum` others that it is
    for. -/
theorem finish_wakes (h : Inv translate s) (hpc : (s.processes q).pc = .walking wake key)
    (hwaits : WaitsFor translate s w q wake) :
    Delivered translate s w q wake (finish s q wake key) := by
  obtain ⟨others, hwalk⟩ := walk_spec h (s.processes q).memory wake key
  have hpositive : 0 < wake.maximum := (h.keyed_of hpc).2
  have hblocked : (s.processes q).blocked = false := h.notBlocked (by rw [hpc]; nofun)
  have hfinish : ∀ x ∈ others, ((finish s q wake key).processes x).blocked = false := by
    intro x hx
    have hne : x ≠ q := by
      rintro rfl
      exact nomatch hblocked.symm.trans (hwalk.woken x hx).1.1
    show ((State.returns _ q _).processes x).blocked = false
    unfold State.returns
    rw [set_ne _ _ hne]
    exact (hwalk.woken x hx).2.1
  by_cases hw : w ∈ others
  · exact .inl (hfinish w hw)
  right
  have hwanted := (h.waitsFor_iff hpc).mp hwaits
  refine ⟨others, hwalk.nodup, ?_, hw,
    fun x hx => ⟨(h.waitsFor_iff hpc).mpr (hwalk.woken x hx).1, hfinish x hx⟩⟩
  have hcount := hwalk.count
  have hbound := hwalk.bounded (by omega)
  -- If the waiter was passed over, the walk had reached its maximum.
  have hfull : ¬((walk s (s.processes q).memory wake key).2 : Int) < wake.maximum :=
    fun hlt => hw (hwalk.complete hlt w (h.met hwanted) hwanted)
  omega

end

/-- In every run that makes no futex waiter ready without clearing its fields: a process that has
    entered a wait and is not linked when a wake takes the scheduler lock does not sleep in that
    wait, and a process that sleeps in a wait on the word of the wake, with a matching bitset, is
    woken by it, unless it woke `maximum` other such processes. -/
theorem futex_wake_not_missed (translate : Translate) (memory : Nat → Nat) (word : Nat → UInt32)
    (events : List Event) (hevents : Undisturbed translate (State.initial memory word) events) :
    let s := run translate (State.initial memory word) events
    (∀ w q wake key interrupted later, (s.processes w).pc.inWait = true →
      (s.processes q).pc = .wakeKeyed wake key → s.holder = none →
        (∀ call, Event.wait w call ∉ later) →
      Undisturbed translate s (.advance q interrupted :: later) →
      ((run translate s (.advance q interrupted :: later)).processes w).waiting = none) ∧
    (∀ w q wake key interrupted, (s.processes q).pc = .walking wake key →
      WaitsFor translate s w q wake →
      Delivered translate s w q wake (advance translate s q interrupted)) := by
  intro s
  have h : Inv translate s := run_inv events (initial_inv memory word) hevents
  constructor
  · intro w q wake key interrupted later hin hpc hholder hnew hlater
    have hne : w ≠ q := by
      rintro rfl
      simp [hpc, Pc.inWait] at hin
    -- The counter goes beyond every sample that was made before.
    have hbump : step translate s (.advance q interrupted) =
        { s with wakeSequence := s.wakeSequence + 1, holder := some q }.goto q
          (.walking wake key) := by
      show advance translate s q interrupted = _
      unfold advance
      simp only [hpc, hholder]
      rfl
    have hblocked := h.notBlocked (p := w) fun huser => by simp [huser, Pc.inWait] at hin
    have hmissed : Missed (step translate s (.advance q interrupted)) w := by
      rw [hbump]
      have hsame :
          ((({ s with wakeSequence := s.wakeSequence + 1, holder := some q } : State).goto q
          (.walking wake key)).processes w) = s.processes w := set_ne _ _ hne
      constructor
      · rw [hsame]
        exact ((h.processes w).unlinked hblocked).2.2
      · rw [hsame]
        exact fun _ => Nat.lt_succ_of_le (h.snapshot w)
    exact (hmissed.run later (step_inv h hlater.1) hlater.2 hnew).waiting
  · intro w q wake key interrupted hpc hwaits
    have hadvance : advance translate s q interrupted = finish s q wake key := by
      unfold advance
      simp only [hpc]
    rw [hadvance]
    exact finish_wakes h hpc hwaits

/-- All of memory is private and mapped where it is, but for the first page. -/
def flatTranslate : Translate := fun _ address =>
  if h : 0 < address then some { physical := address, shared := false, pos := h } else none

/-- A process waits at address 4096 until the word there is no longer zero. -/
def waitAt (p : Nat) : List Event :=
  [.wait p ⟨4096, 0, -1, 1, false⟩, .advance p false, .advance p false, .advance p false]

/-- The third process wakes one waiter there, and is about to walk. -/
def wakeOne : List Event := [.wake 3 ⟨4096, 1, 1, false⟩, .advance 3 false, .advance 3 false]

/-- A waiter is woken while another process sleeps on a channel in the same bucket. -/
theorem waitAt_delivered :
    let s := run flatTranslate (State.initial (fun _ => 0) fun _ => 0)
      (.sleepOn 1 0xFFFF800000009940 :: .ready 1 :: .sleepOn 1 0xFFFF800000009940 ::
        (waitAt 2 ++ wakeOne))
    Delivered flatTranslate s 2 3 ⟨4096, 1, 1, false⟩ (advance flatTranslate s 3 false) := by
  have hspares : Undisturbed flatTranslate (State.initial (fun _ => 0) fun _ => 0)
      (.sleepOn 1 0xFFFF800000009940 :: .ready 1 :: .sleepOn 1 0xFFFF800000009940 ::
        (waitAt 2 ++ wakeOne)) :=
    ⟨trivial, rfl, trivial, trivial, trivial, trivial, trivial, trivial, trivial, trivial, trivial⟩
  exact (futex_wake_not_missed _ _ _ _ hspares).2 2 3 _ 0 false rfl
    ⟨⟨4096, 0, -1, 1, false⟩, rfl, .inl ⟨rfl, rfl⟩, by decide⟩

/-- A waiter is made ready by a child, and later sleeps on a channel in the bucket of the
    address. -/
def staleEvents : List Event :=
  waitAt 1 ++ .ready 1 :: (waitAt 2 ++ .sleepOn 1 0xFFFF800000009940 :: wakeOne)

/-- The wake takes it for a waiter, and the one that waits sleeps on. -/
theorem staleEvents_not_delivered :
    let s := run flatTranslate (State.initial (fun _ => 0) fun _ => 0) staleEvents
    WaitsFor flatTranslate s 2 3 ⟨4096, 1, 1, false⟩ ∧
    ((advance flatTranslate s 3 false).processes 3).ret = 1 ∧
    ¬Delivered flatTranslate s 2 3 ⟨4096, 1, 1, false⟩ (advance flatTranslate s 3 false) := by
  intro s
  refine ⟨⟨⟨4096, 0, -1, 1, false⟩, rfl, .inl ⟨rfl, rfl⟩, by decide⟩, by decide +kernel, ?_⟩
  -- nobody else waits
  have hnobody : ∀ x, x ≠ 2 → (s.processes x).waiting = none := by
    intro x hx
    by_cases h1 : x = 1
    · subst h1
      rfl
    by_cases h3 : x = 3
    · subst h3
      rfl
    -- the steps are those of the three processes
    have hskip : ∀ {f : Nat → Process} {q : Nat} {y : Process}, x ≠ q → (f x).waiting = none →
        (update f q y x).waiting = none := fun hne hf => by rwa [update_of_ne hne]
    repeat first | exact rfl | apply hskip h1 | apply hskip hx | apply hskip h3
  rintro (hready | ⟨others, -, hlength, hother, hwaits⟩)
  · exact absurd hready (by decide +kernel)
  · obtain ⟨x, rfl⟩ : ∃ x, others = [x] := List.length_eq_one_iff.mp (Int.ofNat.inj hlength)
    obtain ⟨wait, hwait, -⟩ := (hwaits x (by simp)).1
    exact nomatch (hnobody x (by rintro rfl; simp at hother)).symm.trans hwait

end Tunix.Futex
