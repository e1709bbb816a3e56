import Mathlib.Data.List.Nodup
import Tunix.ForStd.Run
import Tunix.Kernel.Dgram

/-!
# The lifetime of datagram sockets

A socket is freed once, when it has no references and no socket names it, and nothing touches it
after. This holds in every run that does not drop the last reference of a socket whose only namer is
the socket itself: then the release of its peer frees the socket that is being released.

Between the steps of an operation a count of names is behind or ahead: `OkWith` says by how much.
-/

namespace Tunix.Dgram

open List Option Objects

/-! ## The invariant -/

/-- One more name is counted for `owed` than there is. -/
def owes (owed : Option Nat) (id : Nat) : Nat := if owed = some id then 1 else 0

/-- No reference is on its way. -/
@[simp] theorem owes_none (id : Nat) : owes none id = 0 := rfl

/-- The reference that is on its way. -/
@[simp] theorem owes_same (id : Nat) : owes (some id) id = 1 := if_pos rfl

private theorem owes_ne {id other : Nat} (h : other ≠ id) : owes (some id) other = 0 :=
  if_neg fun heq => h (some.inj heq).symm

/-- The state inside an operation: a name is still counted for `owed`, and the sockets of `dying`
    may have neither references nor names. -/
structure OkWith (owed : Option Nat) (dying : Nat → Prop) (s : State) : Prop where
  objects : s.sockets.Ok
  peer : ∀ id x target, s.sockets.object id = some x → x.dgramPeer = some target →
    ∃ y, s.sockets.object target = some y
  debt : ∀ target, owed = some target → ∃ y, s.sockets.object target = some y
  count : ∀ id x, s.sockets.object id = some x → x.peerRefs = s.namers id + owes owed id
  kept : ∀ id x, s.sockets.object id = some x → ¬dying id → 0 < x.refs ∨ 0 < x.peerRefs
  idle : ∀ id x, s.sockets.object id = some x → x.refs = 0 → x.dgramPeer = none
  listeners : ∀ id ∈ s.listeners, ∃ x, s.sockets.object id = some x ∧ 0 < x.refs ∧ x.path ≠ ""
  nodup : s.listeners.Nodup
  freed : ∀ f ∈ s.freed, f = (0, 0)

abbrev Ok (s : State) : Prop := OkWith none (fun _ => False) s

section

variable {owed : Option Nat} {dying dying' : Nat → Prop} {s : State} {id : Nat} {x y : Socket}

/-- A property of all sockets after one of them has changed. -/
theorem forall_set {P : Nat → Socket → Prop} (hsame : P id y)
    (hothers : ∀ a b, a ≠ id → s.sockets.object a = some b → P a b) :
    ∀ a b, (s.set id y).sockets.object a = some b → P a b := by
  intro a b hab
  by_cases ha : a = id
  · subst ha
    obtain rfl : y = b := some.inj (object_set_same.symm.trans hab)
    exact hsame
  · exact hothers a b ha ((object_set_ne ha).symm.trans hab)

private theorem exists_set (a : Nat) (h : ∃ b, s.sockets.object a = some b) :
    ∃ b, (s.set id y).sockets.object a = some b := by
  by_cases ha : a = id
  · rw [ha]
    exact ⟨y, object_set_same⟩
  · obtain ⟨b, hb⟩ := h
    exact ⟨b, (object_set_ne ha).trans hb⟩

private theorem listeners_set
    (h : ∀ a ∈ s.listeners, ∃ b, s.sockets.object a = some b ∧ 0 < b.refs ∧ b.path ≠ "")
    (hy : id ∈ s.listeners → 0 < y.refs ∧ y.path ≠ "") :
    ∀ a ∈ s.listeners, ∃ b, (s.set id y).sockets.object a = some b ∧ 0 < b.refs ∧ b.path ≠ "" := by
  intro a ha
  by_cases haid : a = id
  · subst haid
    exact ⟨y, object_set_same, hy ha⟩
  · obtain ⟨b, hb, hrest⟩ := h a ha
    exact ⟨b, (object_set_ne haid).trans hb, hrest⟩

/-- The names after a socket has changed. -/
theorem namers_set (h : s.sockets.Ok) (hid : s.sockets.object id = some x) (target : Nat) :
    (s.set id y).namers target + owes x.dgramPeer target =
      s.namers target + owes y.dgramPeer target := by
  have hlt := h.lt_next id x hid
  have hnext : (s.sockets.set id y).next = s.sockets.next := rfl
  have hchange := pointersTo_change Socket.dgramPeer target hlt hnext fun a ha => object_set_ne ha
  rw [hid, object_set_same] at hchange
  exact hchange

private theorem OkWith.mono (h : OkWith owed dying s) (hdying : ∀ a, dying a → dying' a) :
    OkWith owed dying' s :=
  { h with kept := fun a b hab hd => h.kept a b hab fun hn => hd (hdying a hn) }

section

variable (h : OkWith owed dying s) (hid : s.sockets.object id = some x)
include h hid

/-- A socket in the list of names is open and has a name. -/
theorem OkWith.listener (hmem : id ∈ s.listeners) :
    0 < x.refs ∧ x.path ≠ "" := by
  obtain ⟨b, hb, hrest⟩ := h.listeners id hmem
  obtain rfl := some.inj (hid.symm.trans hb)
  exact hrest

/-- A socket changes, and with it the name that is owed. -/
theorem OkWith.setSocket {owed' : Option Nat}
    (hpeer : ∀ target, y.dgramPeer = some target → x.dgramPeer = some target ∨ owed = some target)
    (hdebt : ∀ target, owed' = some target → target = id ∨ x.dgramPeer = some target ∨
      owed = some target)
    (hself : y.peerRefs + owes x.dgramPeer id + owes owed id =
      x.peerRefs + owes y.dgramPeer id + owes owed' id)
    (hothers : ∀ a, a ≠ id → owes x.dgramPeer a + owes owed a = owes y.dgramPeer a + owes owed' a)
    (hdying : ∀ a, dying a → dying' a) (hkept : ¬dying' id → 0 < y.refs ∨ 0 < y.peerRefs)
    (hidle : y.refs = 0 → y.dgramPeer = none)
    (hlisten : id ∈ s.listeners → 0 < y.refs ∧ y.path ≠ "") :
    OkWith owed' dying' (s.set id y) where
  objects := h.objects.set hid y
  peer a b target hab htarget := by
    apply exists_set target
    refine forall_set
      (P := fun _ b => b.dgramPeer = some target → ∃ c, s.sockets.object target = some c)
      ?_ ?_ a b hab htarget
    · exact fun ht => (hpeer target ht).elim (h.peer id x target hid) (h.debt target)
    · exact fun a b _ hab => h.peer a b target hab
  debt target htarget := by
    obtain rfl | hx | howed := hdebt target htarget
    · exact ⟨y, object_set_same⟩
    · exact exists_set target (h.peer id x target hid hx)
    · exact exists_set target (h.debt target howed)
  count := by
    -- The pointer of this socket is the only one that changes.
    have hnamers := namers_set (y := y) h.objects hid
    refine forall_set ?_ ?_
    · have hcount := h.count id x hid
      have hn := hnamers id
      omega
    · intro a b ha hab
      have hcount := h.count a b hab
      have hn := hnamers a
      have ho := hothers a ha
      omega
  kept := forall_set hkept fun a b _ hab hd => h.kept a b hab fun hn => hd (hdying a hn)
  idle := forall_set hidle fun a b _ hab => h.idle a b hab
  listeners := listeners_set h.listeners hlisten
  nodup := h.nodup
  freed := h.freed

/-- A socket gets the name that was owed, and owes the one that it had. -/
theorem OkWith.repoint
    (hpeer : y.dgramPeer = owed) (hrefs : y.peerRefs = x.peerRefs)
    (hidle : y.refs = 0 → y.dgramPeer = none)
    (hkept : ¬dying id → 0 < y.refs ∨ 0 < y.peerRefs)
    (hlisten : id ∈ s.listeners → 0 < y.refs ∧ y.path ≠ "") :
    OkWith x.dgramPeer dying (s.set id y) := by
  refine h.setSocket hid ?_ ?_ ?_ ?_ (fun _ hd => hd) hkept hidle hlisten
  · exact fun target ht => .inr (hpeer.symm.trans ht)
  · exact fun target ht => .inr (.inl ht)
  · rw [hpeer, hrefs]
    omega
  · rw [hpeer]
    omega

end

/-- A name is counted before it is given. -/
theorem OkWith.addName (h : OkWith none dying s) (hid : s.sockets.object id = some x)
    (hrefs : 0 < x.refs) :
    OkWith (some id) dying (s.set id { x with peerRefs := x.peerRefs + 1 }) := by
  have hlisten := h.listener hid
  refine h.setSocket hid (fun _ => .inl) ?_ ?_ ?_ (fun _ hd => hd) (fun _ => .inl hrefs)
    (h.idle id x hid) hlisten
  · exact fun target ht => .inl (some.inj ht).symm
  · simp only [owes_none, owes_same]
    omega
  · intro a ha
    rw [owes_ne ha]
    rfl

/-- A socket that is held changes in other fields. -/
theorem OkWith.update (h : OkWith owed dying s) (hid : s.sockets.object id = some x)
    (hpeer : y.dgramPeer = x.dgramPeer) (hcount : y.peerRefs = x.peerRefs) (hrefs : 0 < y.refs)
    (hpath : id ∈ s.listeners → y.path ≠ "") : OkWith owed dying (s.set id y) := by
  refine h.setSocket hid ?_ (fun _ ht => .inr (.inr ht)) ?_ ?_ (fun _ hd => hd)
    (fun _ => .inl hrefs)
    (fun hzero => absurd hzero (ne_of_gt hrefs)) fun hmem => ⟨hrefs, hpath hmem⟩
  · exact fun target ht => .inl (hpeer.symm.trans ht)
  · rw [hpeer, hcount]
  · intro a _
    rw [hpeer]

/-- A socket with neither references nor names is freed. -/
theorem OkWith.kfree (h : OkWith none dying s) (hid : s.sockets.object id = some x)
    (hrefs : x.refs = 0)
    (hnames : x.peerRefs = 0) :
    ∃ s', Dgram.kfree s id = some s' ∧ OkWith none (fun a => dying a ∧ a ≠ id) s' ∧
      ∀ a, a ≠ id → s'.sockets.object a = s.sockets.object a := by
  have hnone : s.namers id = 0 := by
    have hcount := h.count id x hid
    rw [owes_none] at hcount
    omega
  have hidle : x.dgramPeer = none := h.idle id x hid hrefs
  obtain ⟨o, ho, hok, hnext, hgone, hothers⟩ := h.objects.free hid
  have hlive : ∀ a b, o.object a = some b → a ≠ id ∧ s.sockets.object a = some b := by
    intro a b hab
    have ha : a ≠ id := by
      rintro rfl
      exact nomatch hgone.symm.trans hab
    exact ⟨ha, (hothers a ha).symm.trans hab⟩
  -- The socket named nobody and nobody names it.
  have hnamers : ∀ a, pointersTo Socket.dgramPeer o a = s.namers a := by
    intro a
    apply pointersTo_same hnext
    intro b
    by_cases hb : b = id
    · rw [hb, hgone, hid, bind_some, hidle]
      rfl
    · rw [hothers b hb]
  have hunnamed : ∀ a b, s.sockets.object a = some b → b.dgramPeer ≠ some id := by
    intro a b hab hpeer
    have hpos : 0 < s.namers id := pointersTo_pos.mpr ⟨a, b, h.objects.lt_next a b hab, hab, hpeer⟩
    omega
  unfold Dgram.kfree
  rw [hid, bind_some, ho, map_some]
  refine ⟨_, rfl, ?_, hothers⟩
  exact {
    objects := hok
    peer := by
      intro a b target hab htarget
      obtain ⟨_, hab'⟩ := hlive a b hab
      obtain ⟨c, hc⟩ := h.peer a b target hab' htarget
      have hne : target ≠ id := fun heq => hunnamed a b hab' (heq ▸ htarget)
      exact ⟨c, (hothers target hne).trans hc⟩
    debt := nofun
    count := by
      intro a b hab
      show b.peerRefs = pointersTo Socket.dgramPeer o a + owes none a
      rw [hnamers]
      exact h.count a b (hlive a b hab).2
    kept := by
      intro a b hab hd
      obtain ⟨ha, hab'⟩ := hlive a b hab
      exact h.kept a b hab' fun hn => hd ⟨hn, ha⟩
    idle := fun a b hab => h.idle a b (hlive a b hab).2
    listeners := by
      intro a ha
      obtain ⟨b, hb, hrest⟩ := h.listeners a ha
      have hne : a ≠ id := by
        rintro rfl
        exact absurd hrefs (ne_of_gt (h.listener hid ha).1)
      exact ⟨b, (hothers a hne).trans hb, hrest⟩
    nodup := h.nodup
    freed := forall_mem_append.mpr ⟨h.freed, forall_mem_singleton.mpr (by rw [hrefs, hnone])⟩ }

/-- The name that was owed is taken off. -/
theorem OkWith.put (h : OkWith owed dying s)
    (hsafe : ∀ target x, owed = some target → s.sockets.object target = some x → dying target →
      ¬(x.refs = 0 ∧ x.peerRefs = 1)) :
    ∃ s', dgramPeerPut s owed = some s' ∧ OkWith none dying s' ∧
      ∀ a b, dying a → s.sockets.object a = some b → ∃ c, s'.sockets.object a = some c ∧
        c.refs = b.refs := by
  cases howed : owed with
  | none =>
    subst howed
    exact ⟨s, rfl, h, fun a b _ hab => ⟨b, hab, rfl⟩⟩
  | some target =>
    subst howed
    obtain ⟨x, hx⟩ := h.debt target rfl
    have hcount := h.count target x hx
    rw [owes_same] at hcount
    have hpos : x.peerRefs ≠ 0 := by omega
    -- The count is right again.
    have hok : OkWith none (fun a => dying a ∨ (a = target ∧ x.refs = 0 ∧ x.peerRefs - 1 = 0))
        (s.set target { x with peerRefs := x.peerRefs - 1 }) := by
      have hlisten := h.listener hx
      refine h.setSocket hx (fun _ => .inl) nofun ?_ ?_ (fun _ => .inl) ?_
        (h.idle target x hx) hlisten
      · simp only [owes_none, owes_same]
        omega
      · intro a ha
        rw [owes_ne ha]
        rfl
      · intro hd
        by_cases hrefs : x.refs = 0
        · exact .inr (Nat.pos_of_ne_zero fun hz => hd (.inr ⟨rfl, hrefs, hz⟩))
        · exact .inl (Nat.pos_of_ne_zero hrefs)
    simp only [dgramPeerPut, hx, bind_some, if_neg hpos]
    split_ifs with hlast
    · have hnot : ¬dying target := fun hd => hsafe target x rfl hx hd ⟨hlast.1, by omega⟩
      obtain ⟨s', hs', hok', hothers⟩ := hok.kfree object_set_same hlast.1 hlast.2
      refine ⟨s', hs', hok'.mono ?_, ?_⟩
      · rintro a ⟨hd | ⟨rfl, _⟩, hne⟩
        · exact hd
        · exact absurd rfl hne
      · intro a b hd hab
        have hne : a ≠ target := fun heq => hnot (heq ▸ hd)
        exact ⟨b, by rw [hothers a hne]; exact (object_set_ne hne).trans hab, rfl⟩
    · refine ⟨_, rfl, hok.mono ?_, ?_⟩
      · rintro a (hd | ⟨_, hzero⟩)
        · exact hd
        · exact absurd hzero hlast
      · intro a b _ hab
        by_cases ha : a = target
        · subst ha
          obtain rfl := some.inj (hx.symm.trans hab)
          exact ⟨_, object_set_same, rfl⟩
        · exact ⟨b, (object_set_ne ha).trans hab, rfl⟩

end

/-! ## The list of names -/

variable {s : State}

private theorem search_spec {s : State} (accept : Socket → Bool) {list : List Nat}
    (hlive : ∀ id ∈ list, ∃ x, s.sockets.object id = some x) :
    ∃ found, search s accept list = some found ∧
      ∀ id, found = some id → id ∈ list ∧ ∃ x, s.sockets.object id = some x ∧ accept x = true := by
  induction list with
  | nil => exact ⟨none, rfl, nofun⟩
  | cons bound rest ih =>
    obtain ⟨x, hx⟩ := hlive bound mem_cons_self
    obtain ⟨found, hfound, hspec⟩ := ih fun id hid => hlive id (mem_cons_of_mem _ hid)
    unfold search
    rw [hx, bind_some]
    split_ifs with haccept
    · refine ⟨some bound, rfl, ?_⟩
      rintro _ ⟨⟩
      exact ⟨mem_cons_self, x, hx, haccept⟩
    · refine ⟨found, hfound, fun id hid => ?_⟩
      obtain ⟨hmem, hrest⟩ := hspec id hid
      exact ⟨mem_cons_of_mem _ hmem, hrest⟩

private theorem listenerUnregister_eq {id : Nat} {list : List Nat}
    (hlive : ∀ a ∈ list, ∃ x, s.sockets.object a = some x) :
    listenerUnregister s id list = some (list.erase id) := by
  induction list with
  | nil => rfl
  | cons bound rest ih =>
    obtain ⟨x, hx⟩ := hlive bound mem_cons_self
    have hrest := ih fun a ha => hlive a (mem_cons_of_mem _ ha)
    unfold listenerUnregister
    rw [hx, bind_some]
    split_ifs with heq
    · rw [heq, erase_cons_head]
    · rw [hrest, map_some, erase_cons_tail (by simpa using heq)]

private theorem Ok.listeners_live (h : Ok s) :
    ∀ id ∈ s.listeners, ∃ x, s.sockets.object id = some x := by
  intro id hid
  obtain ⟨x, hx, _⟩ := h.listeners id hid
  exact ⟨x, hx⟩

/-- `find_dgram` gives a socket that is held. -/
theorem findDgram_spec (h : Ok s) (key : String) : ∃ found, findDgram s key = some found ∧
      ∀ id, found = some id → ∃ x, s.sockets.object id = some x ∧ 0 < x.refs := by
  obtain ⟨found, hfound, hspec⟩ :=
    search_spec (fun socket => decide (0 < socket.refs ∧ socket.key = some key)) h.listeners_live
  refine ⟨found, hfound, fun id hid => ?_⟩
  obtain ⟨_, x, hx, haccept⟩ := hspec id hid
  exact ⟨x, hx, (of_decide_eq_true haccept).1⟩

/-! ## Operations -/

section

variable {id : Nat} {x : Socket}

/-- A new socket keeps the accounts of references. -/
private theorem create_ok (h : Ok s) : Ok (create s) := by
  have hnamers : ∀ a, (create s).namers a = s.namers a := fun a => pointersTo_create rfl
  -- What holds of the new socket and of those that are there.
  have hnew : ∀ {P : Nat → Socket → Prop}, P s.sockets.next ⟨1, 0, [], 0, none, "", none⟩ →
      (∀ a b, s.sockets.object a = some b → P a b) → ∀ a b,
        (create s).sockets.object a = some b → P a b := by
    intro P hself hothers a b hab
    by_cases ha : a = s.sockets.next
    · subst ha
      exact some.inj (object_create_same.symm.trans hab) ▸ hself
    · exact hothers a b ((object_create_ne ha).symm.trans hab)
  have hold : ∀ a b, s.sockets.object a = some b → (create s).sockets.object a = some b := by
    intro a b hab
    have hne : a ≠ s.sockets.next := ne_of_lt (h.objects.lt_next a b hab)
    exact (object_create_ne hne).trans hab
  -- Nobody names a socket that was not there.
  have hzero : s.namers s.sockets.next = 0 := by
    by_contra hpos
    obtain ⟨a, b, _, hab, hpeer⟩ := pointersTo_pos.mp (Nat.pos_of_ne_zero hpos)
    obtain ⟨c, hc⟩ := h.peer a b _ hab hpeer
    exact nomatch h.objects.next_none.symm.trans hc
  exact {
    objects := h.objects.create _
    peer := fun a b target hab htarget => by
      obtain ⟨c, hc⟩ :=
        hnew (P := fun _ b => b.dgramPeer = some target → ∃ c, s.sockets.object target = some c)
        nofun (fun a b hab => h.peer a b target hab) a b hab htarget
      exact ⟨c, hold target c hc⟩
    debt := nofun
    count := by
      simp only [hnamers]
      exact hnew hzero.symm h.count
    kept := hnew (fun _ => .inl Nat.one_pos) h.kept
    idle := hnew (fun _ => rfl) h.idle
    listeners := by
      intro a ha
      obtain ⟨b, hb, hrest⟩ := h.listeners a ha
      exact ⟨b, hold a b hb, hrest⟩
    nodup := h.nodup
    freed := h.freed }

section

variable (h : Ok s) (hid : s.sockets.object id = some x)
include h hid

private theorem bind_ok (hrefs : 0 < x.refs) (address : Address)
    (kmalloc : Bool) : ∃ s' status, bind s id address kmalloc = some (s', status) ∧ Ok s' := by
  obtain ⟨used, hused, _⟩ :=
    search_spec (fun socket => decide (socket.key = some address.key)) h.listeners_live
  unfold bind
  simp only [hid, hused, bind_eq_bind, bind_some]
  split_ifs with hpath
  · exact ⟨s, _, rfl, h⟩
  · exact ⟨s, _, rfl, h⟩
  · -- A socket without a name is not in the list.
    have hnot : id ∉ s.listeners := fun hmem => hpath (h.listener hid hmem).2
    have hset :=
      h.update (y := { x with path := address.path, key := some address.key }) hid rfl rfl hrefs
      fun _ => address.path_ne
    refine ⟨_, _, rfl, { hset with listeners := ?_, nodup := nodup_cons.mpr ⟨hnot, h.nodup⟩ }⟩
    exact forall_mem_cons.mpr ⟨⟨_, object_set_same, hrefs, address.path_ne⟩, hset.listeners⟩
  · exact ⟨s, _, rfl, h⟩

private theorem connect_ok (hrefs : 0 < x.refs) (address : Address) :
    ∃ s' status, connect s id address = some (s', status) ∧ Ok s' := by
  obtain ⟨found, hfound, hspec⟩ := findDgram_spec h address.key
  unfold connect
  rw [hfound, bind_some]
  cases found with
  | none => exact ⟨s, _, rfl, h⟩
  | some target =>
    obtain ⟨t, ht, htrefs⟩ := hspec target rfl
    have hnamed := h.addName ht htrefs
    -- The socket as it is after the target has been counted.
    obtain ⟨y, hy, hypeer, hyrefs, hypath⟩ : ∃ y,
        (s.set target { t with peerRefs := t.peerRefs + 1 }).sockets.object id = some y ∧
          y.dgramPeer = x.dgramPeer ∧ y.refs = x.refs ∧ y.path = x.path := by
      by_cases heq : id = target
      · subst heq
        obtain rfl := some.inj (hid.symm.trans ht)
        exact ⟨_, object_set_same, rfl, rfl, rfl⟩
      · exact ⟨x, (object_set_ne heq).trans hid, rfl, rfl, rfl⟩
    have hpointed := hnamed.repoint (y := { y with dgramPeer := some target }) hy rfl rfl
      (fun hzero => absurd (hyrefs ▸ hzero : x.refs = 0) (ne_of_gt hrefs))
      (fun _ => .inl (hyrefs ▸ hrefs))
      fun hmem => ⟨hyrefs ▸ (h.listener hid hmem).1, hypath ▸ (h.listener hid hmem).2⟩
    obtain ⟨s', hs', hok, _⟩ := hpointed.put fun _ _ _ _ hd => hd.elim
    rw [hypeer] at hs'
    simp only [hid, ht, hy, bind_eq_bind, bind_some, hs', map_some]
    exact ⟨s', _, rfl, hok⟩

private theorem dgramDeliver_ok {target : Nat} {t : Socket}
    (ht : s.sockets.object target = some t) (size : Nat) (kmalloc : Bool) :
    ∃ s' status, dgramDeliver s id target size kmalloc = some (s', status) ∧ Ok s' := by
  unfold dgramDeliver
  simp only [ht, hid, bind_eq_bind, bind_some]
  split_ifs with hrefs
  · exact ⟨s, _, rfl, h⟩
  · exact ⟨s, _, rfl, h⟩
  · exact ⟨s, _, rfl, h⟩
  · exact ⟨_, _, rfl, h.update ht rfl rfl (Nat.pos_of_ne_zero hrefs) fun hmem =>
      (h.listener ht hmem).2⟩
  · exact ⟨s, _, rfl, h⟩

private theorem sendto_ok (size : Nat) (address : Address) (kmalloc : Bool) :
    ∃ s' status, sendto s id size address kmalloc = some (s', status) ∧ Ok s' := by
  obtain ⟨found, hfound, hspec⟩ := findDgram_spec h address.key
  unfold sendto
  rw [hfound, bind_some]
  cases found with
  | none => exact ⟨s, _, rfl, h⟩
  | some target =>
    obtain ⟨t, ht, _⟩ := hspec target rfl
    exact dgramDeliver_ok h hid ht size kmalloc

private theorem write_ok (size : Nat) (kmalloc : Bool) :
    ∃ s' status, write s id size kmalloc = some (s', status) ∧ Ok s' := by
  unfold write
  rw [hid, bind_some]
  cases hpeer : x.dgramPeer with
  | none => exact ⟨s, _, rfl, h⟩
  | some peer =>
    obtain ⟨t, ht⟩ := h.peer id x peer hid hpeer
    exact dgramDeliver_ok h hid ht size kmalloc

end

/-- The socket's last reference is about to go, and the only name that it has is its own. -/
def State.alone (s : State) (id : Nat) : Bool :=
  (s.sockets.object id).any fun x => x.refs = 1 ∧ x.dgramPeer = some id ∧ x.peerRefs = 1

private theorem alone_iff : s.alone id = true ↔ ∃ x, s.sockets.object id = some x ∧
    x.refs = 1 ∧ x.dgramPeer = some id ∧ x.peerRefs = 1 := by
  unfold State.alone
  cases s.sockets.object id <;> simp

/-- A reference is given back, unless the only name that keeps the socket is its own. -/
private theorem unref_ok (h : Ok s) (hid : s.sockets.object id = some x) (hrefs : 0 < x.refs)
    (hsafe : ¬s.alone id = true) :
    ∃ s', unref s id = some s' ∧ Ok s' := by
  unfold unref
  simp only [hid, bind_some, if_neg (ne_of_gt hrefs)]
  split_ifs with hmore
  · exact ⟨_, rfl, h.update hid rfl rfl (Nat.pos_of_ne_zero hmore) fun hmem =>
      (h.listener hid hmem).2⟩
  have hone : x.refs - 1 = 0 := by omega
  have hlive : ∀ a ∈ s.listeners,
      ∃ b, (s.set id { x with refs := x.refs - 1 }).sockets.object a = some b :=
    fun a ha => exists_set a (h.listeners_live a ha)
  -- The socket leaves the list, and gives up its peer.
  have hleaving : OkWith none (fun a => a = id) s := h.mono fun _ hn => hn.elim
  have hout : OkWith none (fun a => a = id) { s with listeners := s.listeners.erase id } :=
    { hleaving with
      listeners := fun a ha => h.listeners a (mem_of_mem_erase ha)
      nodup := h.nodup.erase id }
  have hdropped := hout.repoint
    (y := { x with refs := x.refs - 1, rx := [], rxBytes := 0, dgramPeer := none }) hid rfl
      rfl (fun _ => rfl)
    (fun hd => absurd rfl hd) fun hmem => absurd hmem h.nodup.not_mem_erase
  obtain ⟨s₁, hs₁, hok₁, hdying⟩ := hdropped.put fun target y howed hy hd hlast => by
    obtain rfl : target = id := hd
    have hy' : some y =
        some { x with refs := x.refs - 1, rx := [], rxBytes := 0, dgramPeer := none } :=
      hy.symm.trans object_set_same
    obtain rfl := some.inj hy'
    exact hsafe (alone_iff.mpr ⟨x, hid, by omega, howed, hlast.2⟩)
  obtain ⟨c, hc, hcrefs⟩ := hdying id _ rfl object_set_same
  have hcrefs : c.refs = 0 := hcrefs.trans hone
  have hsets : ∀ y z : Socket, (s.sockets.set id y).set id z = s.sockets.set id z := by
    intro y z
    unfold Objects.set
    rw [Function.update_idem]
  have hunregister : listenerUnregister (s.set id { x with refs := x.refs - 1 }) id s.listeners =
      some (s.listeners.erase id) := listenerUnregister_eq hlive
  have hput : dgramPeerPut (State.mk (s.sockets.set id
      { x with refs := x.refs - 1, rx := [], rxBytes := 0, dgramPeer := none })
        (s.listeners.erase id) s.freed)
      x.dgramPeer = some s₁ := hs₁
  unfold State.set at hunregister
  unfold release
  simp only [State.set, hunregister, object_set_same, hsets, hput, hc, bind_eq_bind,
    bind_some]
  split_ifs with hnamed
  · refine ⟨s₁, rfl, { hok₁ with kept := ?_ }⟩
    intro a b hab _
    by_cases ha : a = id
    · subst ha
      obtain rfl := some.inj (hc.symm.trans hab)
      exact .inr (Nat.pos_of_ne_zero hnamed)
    · exact hok₁.kept a b hab ha
  · obtain ⟨s', hs', hok', _⟩ := hok₁.kfree hc hcrefs (by omega)
    exact ⟨s', hs', hok'.mono fun a hn => hn.2 hn.1⟩

/-- The socket is freed while it is being released. -/
theorem unref_alone (h : s.alone id = true) : unref s id = none := by
  obtain ⟨x, hid, hrefs, hpeer, hnames⟩ := alone_iff.mp h
  unfold unref release
  simp only [hid, bind_some, hrefs, State.set, object_set_same, hpeer, bind_eq_bind]
  cases listenerUnregister _ id s.listeners with
  | none => rfl
  | some listeners =>
    simp [dgramPeerPut, State.set, kfree, free, hnames]

end

/-! ## Runs -/

/-- The last reference of a socket whose only namer it is itself is not dropped. -/
def Safe (s : State) : Event → Prop
  | .unref id => ¬s.alone id = true
  | _ => True

private theorem initial_ok : Ok State.initial where
  objects := empty_ok
  peer := nofun
  debt := nofun
  count := nofun
  kept := nofun
  idle := nofun
  listeners := nofun
  nodup := nodup_nil
  freed := nofun

private theorem held_iff {id : Nat} :
    s.held id = true ↔ ∃ x, s.sockets.object id = some x ∧ 0 < x.refs := by
  unfold State.held
  cases s.sockets.object id <;> simp

/-- An operation that is done for someone who holds a reference. -/
theorem step_held (h : Ok s) {id : Nat} {op : Option State}
    (hop : ∀ x, s.sockets.object id = some x → 0 < x.refs → ∃ t, op = some t ∧ Ok t) :
    ∃ t, (if s.held id then op else some s) = some t ∧ Ok t := by
  split_ifs with hheld
  · obtain ⟨x, hx, hrefs⟩ := held_iff.mp hheld
    exact hop x hx hrefs
  · exact ⟨s, rfl, h⟩

private theorem map_fst_ok {op : Option (State × Option Errno)}
    (h : ∃ s' status, op = some (s', status) ∧ Ok s') :
    ∃ t, op.map (·.1) = some t ∧ Ok t := by
  obtain ⟨s', status, rfl, hok⟩ := h
  exact ⟨s', rfl, hok⟩

private theorem step_ok (h : Ok s) {event : Event} (hsafe : Safe s event) :
    ∃ t, step s event = some t ∧ Ok t := by
  cases event with
  | create => exact ⟨_, rfl, create_ok h⟩
  | bind id address kmalloc =>
    exact step_held h fun x hx hrefs => map_fst_ok (bind_ok h hx hrefs address kmalloc)
  | connect id address =>
    exact step_held h fun x hx hrefs => map_fst_ok (connect_ok h hx hrefs address)
  | sendto id size address kmalloc =>
    exact step_held h fun x hx _ => map_fst_ok (sendto_ok h hx size address kmalloc)
  | write id size kmalloc => exact step_held h fun x hx _ => map_fst_ok (write_ok h hx size kmalloc)
  | ref id =>
    apply step_held h
    intro x hx hrefs
    unfold ref
    rw [hx, map_some]
    exact ⟨_, rfl, h.update hx rfl rfl (Nat.succ_pos _) fun hmem => (h.listener hx hmem).2⟩
  | unref id => exact step_held h fun x hx hrefs => unref_ok h hx hrefs hsafe

private theorem safe_of_step {t : State} {event : Event} (h : step s event = some t) :
    Safe s event := by
  cases event with
  | unref id =>
    intro halone
    have hheld : s.held id = true := by
      obtain ⟨x, hx, hcond⟩ := alone_iff.mp halone
      exact held_iff.mpr ⟨x, hx, by omega⟩
    have hnone : step s (.unref id) = none := by
      show (if s.held id then unref s id else some s) = none
      rw [if_pos hheld, unref_alone halone]
    exact nomatch hnone.symm.trans h
  | _ => trivial

/-- What is asked of the sockets: each one that was created is there or has been freed once; one was
    freed with no references and no names; one without either is not there any more; and none that
    has been freed is named. -/
structure Lifetime (s : State) : Prop where
  live : ∀ id x, s.sockets.object id = some x → s.sockets.frees id = 0
  once : ∀ id, id < s.sockets.next → s.sockets.object id = none → s.sockets.frees id = 1
  unused : ∀ f ∈ s.freed, f = (0, 0)
  kept : ∀ id x, s.sockets.object id = some x → 0 < x.refs ∨ 0 < s.namers id
  named : ∀ id x target, s.sockets.object id = some x → x.dgramPeer = some target →
    ∃ y, s.sockets.object target = some y

private theorem Ok.lifetime (h : Ok s) : Lifetime s where
  live := h.objects.live
  once := h.objects.gone
  unused := h.freed
  kept id x hx := by
    have hcount := h.count id x hx
    have hkept := h.kept id x hx not_false
    rw [owes_none] at hcount
    omega
  named := h.peer

/-- A run of operations never touches a freed socket, and frees each socket once and when it should,
    exactly if it never drops the last reference of a socket whose only namer is the socket
    itself. -/
theorem dgram_lifetime (events : List Event) :
    (∃ s, Steps.run step State.initial events = some s ∧ Lifetime s) ↔
      Steps.Always step Safe State.initial events := by
  constructor
  · rintro ⟨s, hrun, _⟩
    exact Steps.Always.of_run (fun _ _ _ => safe_of_step) hrun
  · intro hsafe
    have hstep : ∀ s event, Ok s → Safe s event → ∃ t, step s event = some t ∧ Ok t :=
      fun s event h hs => step_ok h hs
    obtain ⟨s, hrun, hok⟩ := Steps.run_exists hstep initial_ok hsafe
    exact ⟨s, hrun, hok.lifetime⟩

/-- A socket that is bound, connected to itself and closed is freed twice. -/
theorem dgram_lifetime_self : Steps.run step State.initial
      [.create, .bind 0 ⟨"/s", "/s", by decide⟩ true, .connect 0 ⟨"/s", "/s", by decide⟩,
        .unref 0] = none := by
  rfl

end Tunix.Dgram
