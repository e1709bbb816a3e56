import Mathlib.Data.List.Basic

/-!
# A device that may lose unflushed writes

The history of a block device is the list of the requests it has completed, newest first.
`view` is what a read returns: the newest write to the address. A power cut keeps every
write issued before the last flush and an arbitrary subset of the later ones;
`CrashImage` is the set of contents the device may then hold.

Protocols built from phases ("write these blocks, then flush") are described by
`Executes`: a run completes some phases, and if it fails it has issued an arbitrary
subset of the writes of the phase it failed in. `Executes.torn` says what a power cut
during a run leaves: whole phases, and a part of one more.
-/

namespace Disk

open Function List

variable {α β : Type*}

/-- A completed request. -/
inductive Event (α β : Type*) where
  | write (addr : α) (data : β)
  | flush

/-- A history, newest request first. -/
abbrev History (α β : Type*) := List (Event α β)

/-- The history after issuing a list of writes in order. -/
def issue (ws : List (α × β)) (es : History α β) : History α β :=
  (ws.map fun w => Event.write w.1 w.2).reverse ++ es

/-- No write changes no history. -/
@[simp] theorem issue_nil (es : History α β) : issue [] es = es := rfl

private theorem issue_cons (w : α × β) (ws : List (α × β)) (es : History α β) :
    issue (w :: ws) es = issue ws (.write w.1 w.2 :: es) := by
  simp [issue]

/-- Writes are issued one after the other. -/
theorem issue_append (ws vs : List (α × β)) (es : History α β) :
    issue (ws ++ vs) es = issue vs (issue ws es) := by
  simp [issue]

/-- Writes are put in front of the history, whatever it is. -/
theorem issue_eq_append (ws : List (α × β)) (es : History α β) :
    issue ws es = issue ws [] ++ es := by
  simp [issue]

variable [DecidableEq α] {img d base : α → β} {ws : List (α × β)} {es fs : History α β}
    {phases : List (List (α × β))}

/-- What a read returns after a history: the newest write, or the initial contents. -/
def view (base : α → β) : History α β → α → β
  | [] => base
  | .write a v :: es => update (view base es) a v
  | .flush :: es => view base es

/-- The contents a device may hold after a power cut at the end of a history. -/
inductive CrashImage (base : α → β) : History α β → (α → β) → Prop where
  | nil : CrashImage base [] base
  | keep {es : History α β} {img : α → β} (a : α) (v : β) (h : CrashImage base es img) :
      CrashImage base (.write a v :: es) (update img a v)
  | lose {es : History α β} {img : α → β} (a : α) (v : β) (h : CrashImage base es img) :
      CrashImage base (.write a v :: es) img
  | flush (es : History α β) : CrashImage base (.flush :: es) (view base es)

/-! ## Write lists -/

/-- Applying a list of writes in order. -/
def apply (ws : List (α × β)) (d : α → β) : α → β := ws.foldl (fun d w => update d w.1 w.2) d

/-- No write changes no disk. -/
@[simp] theorem apply_nil (d : α → β) : apply [] d = d := rfl

/-- The first write goes to the disk first. -/
@[simp] theorem apply_cons (w : α × β) (ws : List (α × β)) (d : α → β) :
    apply (w :: ws) d = apply ws (update d w.1 w.2) := rfl

/-- A block is what was written to it. -/
theorem apply_singleton_self (a : α) (v : β) (d : α → β) : apply [(a, v)] d a = v := update_self ..

/-- A single write that is the only difference between two contents. -/
theorem eq_apply_singleton {a : α} {v : β} (h : ∀ b, img b = d b ∨ (b, img b) = (a, v)) :
    img = d ∨ img = apply [(a, v)] d := by
  by_cases ha : img a = d a
  · left
    funext b
    rcases h b with hb | hb
    · exact hb
    · rw [(Prod.mk.inj hb).1, ha]
  · right
    funext b
    by_cases hba : b = a
    · subst hba
      rw [apply_singleton_self]
      exact (Prod.mk.inj ((h b).resolve_left ha)).2
    · rw [show apply [(a, v)] d b = d b from update_of_ne hba ..]
      exact (h b).resolve_right fun heq => hba (Prod.mk.inj heq).1

/-- Writes are applied one after the other. -/
theorem apply_append (ws vs : List (α × β)) (d : α → β) :
    apply (ws ++ vs) d = apply vs (apply ws d) := by
  simp [apply]

/-- A device answers what has been issued, whether it is durable or not. -/
theorem view_issue (base : α → β) (ws : List (α × β)) (es : History α β) :
    view base (issue ws es) = apply ws (view base es) := by
  induction ws generalizing es with
  | nil => rfl
  | cons w ws ih => rw [issue_cons, ih]; rfl

/-- An address no write names keeps its contents. -/
theorem apply_of_not_mem {a : α} (h : ∀ w ∈ ws, w.1 ≠ a) : apply ws d a = d a := by
  induction ws generalizing d with
  | nil => rfl
  | cons w ws ih =>
    rw [apply_cons, ih fun w' hw' => h w' (mem_cons_of_mem _ hw')]
    exact update_of_ne (Ne.symm (h w mem_cons_self)) ..

/-- With distinct addresses every written block holds what was written to it. -/
theorem apply_of_mem {w : α × β} (hnd : (ws.map Prod.fst).Nodup) (hw : w ∈ ws) :
    apply ws d w.1 = w.2 := by
  induction ws generalizing d with
  | nil => exact absurd hw not_mem_nil
  | cons w' ws ih =>
    simp only [map_cons, nodup_cons, mem_map, not_exists, not_and] at hnd
    rw [apply_cons]
    rcases mem_cons.mp hw with rfl | hw
    · rw [apply_of_not_mem fun x hx => hnd.1 x hx, update_self]
    · exact ih hnd.2 hw

/-- Writes to distinct blocks can be made in any order. -/
theorem apply_perm {vs : List (α × β)} (hnd : (ws.map Prod.fst).Nodup) (h : vs.Perm ws)
    (d : α → β) : apply vs d = apply ws d := by
  funext a
  by_cases hm : ∃ w ∈ ws, w.1 = a
  · obtain ⟨w, hw, rfl⟩ := hm
    have hnd' := (h.map Prod.fst).nodup_iff.mpr hnd
    rw [apply_of_mem hnd hw, apply_of_mem hnd' (h.mem_iff.mpr hw)]
  · push Not at hm
    rw [apply_of_not_mem hm, apply_of_not_mem fun w hw => hm w (h.mem_iff.mp hw)]

/-- A block holds its old contents or something that was written to it. -/
theorem apply_cases (ws : List (α × β)) (d : α → β) (a : α) :
    apply ws d a = d a ∨ (a, apply ws d a) ∈ ws := by
  induction ws generalizing d with
  | nil => exact Or.inl rfl
  | cons w ws ih =>
    rw [apply_cons]
    rcases ih (update d w.1 w.2) with h | h
    · by_cases ha : a = w.1
      · subst ha
        rw [h, update_self]
        exact Or.inr mem_cons_self
      · rw [h, update_of_ne ha]
        exact Or.inl rfl
    · exact Or.inr (mem_cons_of_mem _ h)

/-- Two contents that agree where nothing is written agree after the writes. -/
theorem apply_congr {d' : α → β} {a : α} (h : (∀ w ∈ ws, w.1 ≠ a) → d a = d' a) :
    apply ws d a = apply ws d' a := by
  induction ws generalizing d d' with
  | nil => exact h (by simp)
  | cons w ws ih =>
    rw [apply_cons, apply_cons]
    apply ih
    intro hws
    by_cases hwa : w.1 = a
    · subst hwa; simp
    · rw [update_of_ne (Ne.symm hwa), update_of_ne (Ne.symm hwa)]
      exact h (by simpa [hwa] using hws)

/-! ## Crash images of a longer history -/

private theorem view_append (base : α → β) (es fs : History α β) :
    view base (es ++ fs) = view (view base fs) es := by
  induction es with
  | nil => rfl
  | cons e es ih => cases e <;> simp [view, ih]

/-- A history is settled when a power cut can lose none of its writes. -/
def Settled (base : α → β) (es : History α β) : Prop :=
  ∀ img, CrashImage base es img → img = view base es

/-- Nothing is left to be made durable at the start. -/
theorem settled_nil (base : α → β) : Settled base [] := by
  rintro _ ⟨⟩
  rfl

private theorem settled_flush (base : α → β) (es : History α β) : Settled base (.flush :: es) := by
  rintro _ ⟨⟩
  rfl

/-- Only the requests after a settled history matter. -/
theorem CrashImage.of_append (hs : Settled base fs) (h : CrashImage base (es ++ fs) img) :
    CrashImage (view base fs) es img := by
  induction es generalizing img with
  | nil => rw [hs img h]; exact .nil
  | cons e es ih =>
    cases h with
    | keep a v h => exact .keep a v (ih h)
    | lose a v h => exact .lose a v (ih h)
    | flush =>
      change CrashImage _ _ (view base (es ++ fs))
      rw [view_append]
      exact .flush es

/-- A history of writes from a list: every address holds its old value or one that was written
    to it. -/
theorem CrashImage.of_writes (hes : ∀ e ∈ es, ∃ w ∈ ws, e = .write w.1 w.2)
    (h : CrashImage base es img) (a : α) :
    img a = base a ∨ (a, img a) ∈ ws := by
  induction h with
  | nil => exact Or.inl rfl
  | keep a' v _ ih =>
    by_cases ha : a = a'
    · subst ha
      obtain ⟨w, hw, heq⟩ := hes _ mem_cons_self
      cases heq
      rw [update_self]
      exact Or.inr hw
    · rw [update_of_ne ha]
      exact ih fun e he => hes e (mem_cons_of_mem _ he)
  | lose a' v _ ih => exact ih fun e he => hes e (mem_cons_of_mem _ he)
  | flush es =>
    obtain ⟨w, _, heq⟩ := hes _ mem_cons_self
    cases heq

/-! ## Phased protocols -/

/-- A phase is a list of writes that ends with a flush. `Executes phases hist ok` holds of the
    requests `hist` (newest first) that a run of the phases has issued; `ok` tells whether all of
    them completed. A run that fails has issued some of the writes of the phase it failed in, and
    no later one. -/
inductive Executes : List (List (α × β)) → History α β → Bool → Prop where
  | done : Executes [] [] true
  | fail {ph : List (α × β)} {rest : List (List (α × β))} {ws : List (α × β)}
      (h : ∀ w ∈ ws, w ∈ ph) : Executes (ph :: rest) (issue ws []) false
  | phase {ph : List (α × β)} {rest : List (List (α × β))} {hist : History α β} {ok : Bool}
      (h : Executes rest hist ok) : Executes (ph :: rest) (hist ++ .flush :: issue ph []) ok

omit [DecidableEq α] in
/-- A completed run of some phases goes on with the next ones. -/
theorem Executes.append {ps qs : List (List (α × β))} {ok : Bool}
    (hp : Executes ps es true) (hq : Executes qs fs ok) : Executes (ps ++ qs) (fs ++ es) ok := by
  induction ps generalizing es with
  | nil => cases hp; simpa using hq
  | cons ph ps ih =>
    cases hp with
    | phase h =>
      rw [← append_assoc]
      exact .phase (ih h)

omit [DecidableEq α] in
/-- A run that has failed does not come to the later phases. -/
theorem Executes.append_of_fail {ps : List (List (α × β))}
    (hp : Executes ps es false) (qs : List (List (α × β))) : Executes (ps ++ qs) es false := by
  induction ps generalizing es with
  | nil => cases hp
  | cons ph ps ih =>
    cases hp with
    | fail h => exact .fail h
    | phase h => exact .phase (ih h)

omit [DecidableEq α] in
/-- Writes left over from before a run belong to its first phase. -/
theorem Executes.prepend {ph : List (α × β)} {rest : List (List (α × β))}
    {ok : Bool} (h : Executes (ph :: rest) es ok) (ws : List (α × β)) :
    Executes ((ws ++ ph) :: rest) (es ++ issue ws []) ok := by
  cases h with
  | fail h =>
    rw [← issue_eq_append, ← issue_append]
    exact .fail fun w hw => by
      rcases mem_append.mp hw with hw | hw
      · exact mem_append_left _ hw
      · exact mem_append_right _ (h w hw)
  | phase h =>
    rw [append_assoc, cons_append, ← issue_eq_append, ← issue_append]
    exact .phase h

/-- A completed run leaves what its writes leave. -/
theorem Executes.view_of_ok
    (h : Executes phases es true) : view base (es ++ fs) = apply phases.flatten (view base fs) := by
  induction phases generalizing es fs with
  | nil => cases h; rfl
  | cons ph phases ih =>
    cases h with
    | phase h =>
      rw [append_assoc, ih h, flatten_cons, apply_append, cons_append, ← issue_eq_append]
      exact congrArg _ (view_issue base ph fs)

/-- A completed run leaves nothing that a power cut could lose. -/
theorem Executes.settled (h : Executes phases es true) (hs : Settled base fs) :
    Settled base (es ++ fs) := by
  induction phases generalizing es fs with
  | nil => cases h; exact hs
  | cons ph phases ih =>
    cases h with
    | phase h =>
      rw [append_assoc]
      exact ih h (settled_flush base _)

/-- The contents after a power cut during a run of some phases: the phases before the one that
    was cut off are complete, and of that one some writes have landed. -/
inductive Torn : (α → β) → List (List (α × β)) → (α → β) → Prop where
  | done (base : α → β) : Torn base [] base
  | stop {base img : α → β} {ph : List (α × β)} {rest : List (List (α × β))}
      (h : ∀ a, img a = base a ∨ (a, img a) ∈ ph) : Torn base (ph :: rest) img
  | phase {base img : α → β} {ph : List (α × β)} {rest : List (List (α × β))}
      (h : Torn (apply ph base) rest img) : Torn base (ph :: rest) img

omit [DecidableEq α] in
private theorem mem_issue_nil {e : Event α β} (h : e ∈ issue ws []) :
    ∃ w ∈ ws, e = .write w.1 w.2 := by
  simp only [issue, append_nil, mem_reverse, mem_map] at h
  obtain ⟨w, hw, rfl⟩ := h
  exact ⟨w, hw, rfl⟩

/-- **Power cuts during a run**: wherever the run is cut off, the device is torn in one phase. -/
theorem Executes.torn {later : History α β} {ok : Bool} (h : Executes phases (later ++ es) ok)
    (himg : CrashImage base es img) : Torn base phases img := by
  generalize htotal : later ++ es = total at h
  induction h generalizing base later es with
  | done =>
    obtain ⟨-, rfl⟩ := append_eq_nil_iff.mp htotal
    cases himg
    exact .done _
  | @fail ph rest ws hws =>
    refine .stop (himg.of_writes fun e he => ?_)
    obtain ⟨w, hw, rfl⟩ := mem_issue_nil (htotal ▸ mem_append_right later he)
    exact ⟨w, hws w hw, rfl⟩
  | @phase ph rest hist ok _ ih =>
    have hview : view base (.flush :: issue ph []) = apply ph base := view_issue base ph []
    -- the cut is behind the flush of this phase, or before it
    rcases append_eq_append_iff.mp htotal with ⟨cs, hhist, rfl⟩ | ⟨cs, -, hcs⟩
    · have hcut := himg.of_append (settled_flush base (issue ph []))
      rw [hview] at hcut
      exact .phase (ih hcut hhist.symm)
    cases cs with
    | nil =>
      subst hcs
      have heq : img = apply ph base := (settled_flush base (issue ph []) img himg).trans hview
      refine .phase (ih ?_ (append_nil hist))
      rw [heq]
      exact .nil
    | cons c cs =>
      obtain ⟨-, hcs⟩ := cons.inj hcs
      exact .stop (himg.of_writes fun e he => mem_issue_nil (hcs ▸ mem_append_right cs he))

end Disk
