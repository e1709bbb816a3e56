import Mathlib.Algebra.Order.BigOperators.Group.Finset
import Tunix.ForStd.Run
import Tunix.ForStd.Sums
import Tunix.Kernel.Ipv4

/-!
# Reassembled datagrams

A reassembly counts, for each unit of eight bytes, how many bytes the first fragment that reaches it
has in it. `Reassembly.Sound` says what the counter means: it is the sum over the units of a number
of bytes that were copied. If no fragment reaches behind the end that the last one announces, then a
counter equal to the announced end leaves no byte out.
-/

namespace Tunix.Net

open Bytes Function List Option

variable {entry : Reassembly} {ip : Ipv4Header} {received : List Region}

/-- The fragment has a byte for this offset. -/
def Part.Covers (p : Part) (i : Nat) : Prop := p.offset ≤ i ∧ i < p.stop

/-- The number of units of the bitmap. -/
def reassemblyUnits : Nat := 8192

/-- What a counter counts: `count u` bytes of unit `u`, all of which were copied. -/
structure Counts (filled : Buffer) (parts : List Part) (received : Nat) (count : Nat → Nat) :
    Prop where
  unfilled : ∀ u, bitTest filled u = false → count u = 0
  le : ∀ u, count u ≤ 8
  covered : ∀ u i, u * 8 ≤ i → i < u * 8 + count u → ∃ p ∈ parts, p.Covers i
  received : received = ∑ u ∈ Finset.range reassemblyUnits, count u

structure Reassembly.Sound (entry : Reassembly) : Prop where
  header : entry.header.size = 60
  filled : entry.filled.size = 1024
  data : entry.data.size = ipv4Max
  headerLength : entry.headerLength ≤ 60
  total : entry.total ≤ ipv4Max
  /-- A byte of the buffer that a fragment has a byte for comes from one of those. -/
  copied : ∀ i, (∃ p ∈ entry.parts, p.Covers i) →
    ∃ p ∈ entry.parts, p.offset ≤ i ∧ p.payload[i - p.offset]? = some (entry.data.bytes i)
  counts : ∃ count, Counts entry.filled.bytes entry.parts entry.received count

private theorem sound_newReassembly (ip : Ipv4Header) (now : Nat) (memory : Buffer) :
    (newReassembly ip now memory).Sound where
  header := rfl
  filled := rfl
  data := rfl
  headerLength := Nat.zero_le _
  total := Nat.zero_le _
  copied := by
    rintro i ⟨p, hp, -⟩
    cases hp
  counts := by
    refine ⟨fun _ => 0, fun _ _ => rfl, fun _ => Nat.zero_le _, fun u i hle hlt => ?_, ?_⟩
    · omega
    · simp [newReassembly]

/-! ## The loop over the units -/

/-- One unit is counted. -/
theorem Counts.fill {filled : Buffer} {parts : List Part} {received : Nat} {count : Nat → Nat}
    (h : Counts filled parts received count) (unit n : Nat)
    (hunit : unit < reassemblyUnits) (hn : n ≤ 8)
    (hfree : bitTest filled unit = false)
    (hcovered : ∀ i, unit * 8 ≤ i → i < unit * 8 + n → ∃ p ∈ parts, p.Covers i) :
    Counts (bitSet filled unit) parts (received + n) (update count unit n) where
  unfilled u hu := by
    rw [bitTest_bitSet, Bool.or_eq_false_iff, decide_eq_false_iff_not] at hu
    rw [update_of_ne hu.1]
    exact h.unfilled u hu.2
  le u := by
    by_cases hu : u = unit
    · rw [hu, update_self]
      exact hn
    · rw [update_of_ne hu]
      exact h.le u
  covered u i hle hlt := by
    by_cases hu : u = unit
    · rw [hu, update_self] at hlt
      exact hcovered i (hu ▸ hle) hlt
    · rw [update_of_ne hu] at hlt
      exact h.covered u i hle hlt
  received := by
    have hsum := Finset.sum_range_change hunit (f := count) (g := update count unit n) fun u hu =>
      update_of_ne hu ..
    rw [update_self, h.unfilled unit hfree, add_zero, ← h.received] at hsum
    exact hsum.symm

namespace Reassembly

/-- The loop stays inside the bitmap and counts only bytes of the fragment. -/
theorem Sound.fill (h : entry.Sound) (p : Part) (hstop : p.stop ≤ ipv4Max)
    (turns unit : Nat) (hp : p ∈ entry.parts) (hoffset : p.offset ≤ unit * 8) :
    ∃ filled received,
      fill p.stop turns unit entry = some { entry with filled := filled, received := received } ∧
      Sound { entry with filled := filled, received := received } := by
  induction turns generalizing unit entry with
  | zero => exact ⟨entry.filled, entry.received, rfl, h⟩
  | succ turns ih =>
    rw [fill]
    by_cases hunit : unit * 8 < p.stop
    swap
    · rw [if_neg hunit]
      exact ⟨entry.filled, entry.received, rfl, h⟩
    rw [if_pos hunit]
    -- A unit that is filled already counts no bytes again.
    cases hbit : bitTest entry.filled.bytes unit with
    | true => exact ih h (unit + 1) hp (by omega)
    | false =>
      unfold ipv4Max at hstop
      have hinside : unit / 8 < entry.filled.size := by
        rw [h.filled]
        omega
      rw [Region.setBit_eq hinside]
      obtain ⟨count, hcount⟩ := h.counts
      have hcount' := hcount.fill unit (min (unit * 8 + 8) p.stop - unit * 8)
        (by unfold reassemblyUnits; omega) (by omega) hbit fun i hle hlt =>
          ⟨p, hp, by unfold Part.Covers; omega⟩
      have hsound : Sound { entry with
          filled := { entry.filled with bytes := bitSet entry.filled.bytes unit }
          received := entry.received + (min (unit * 8 + 8) p.stop - unit * 8) } :=
        { h with counts := ⟨_, hcount'⟩ }
      obtain ⟨filled, received, hfill, hsound'⟩ := ih hsound (unit + 1) hp (by omega)
      exact ⟨filled, received, hfill, hsound'⟩

/-! ## Storing a fragment -/

/-- A fragment is copied over what was there before. -/
theorem Sound.copy (h : entry.Sound) (offset : Nat) (payload : List UInt8) : Sound { entry with
      data := { entry.data with bytes := overlay entry.data.bytes offset payload }
      parts := ⟨offset, payload⟩ :: entry.parts } where
  header := h.header
  filled := h.filled
  data := h.data
  headerLength := h.headerLength
  total := h.total
  copied i hi := by
    by_cases hnew : offset ≤ i ∧ i < offset + payload.length
    · exact ⟨⟨offset, payload⟩, mem_cons_self, hnew.1, overlay_of_mem _ _ _ _ hnew.1 hnew.2⟩
    -- outside the new fragment the buffer is as before
    have hsame : overlay entry.data.bytes offset payload i = entry.data.bytes i := by
      rcases lt_or_ge i offset with hlt | hge
      · exact overlay_of_lt _ _ hlt
      · exact overlay_of_ge _ _ (by omega)
    obtain ⟨p, hp, hcovers⟩ := hi
    have hp' : p ∈ entry.parts := by
      rcases mem_cons.mp hp with rfl | hp'
      · exact absurd hcovers hnew
      · exact hp'
    obtain ⟨q, hq, hle, hbyte⟩ := h.copied i ⟨p, hp', hcovers⟩
    refine ⟨q, mem_cons_of_mem _ hq, hle, ?_⟩
    dsimp only
    rw [hsame]
    exact hbyte
  counts := by
    obtain ⟨count, hcount⟩ := h.counts
    refine ⟨count, hcount.unfilled, hcount.le, fun u i hle hlt => ?_, hcount.received⟩
    obtain ⟨p, hp, hcovers⟩ := hcount.covered u i hle hlt
    exact ⟨p, mem_cons_of_mem _ hp, hcovers⟩

/-- What a fragment changes in its reassembly besides the counters. -/
structure Stored (entry entry' : Reassembly) (header : List UInt8) (p : Part) (last : Bool) :
    Prop where
  source : entry'.source = entry.source
  destination : entry'.destination = entry.destination
  identification : entry'.identification = entry.identification
  protocol : entry'.protocol = entry.protocol
  parts : entry'.parts = p :: entry.parts
  total : entry'.total = if last then p.stop else entry.total
  headerLength : entry'.headerLength = if p.offset = 0 then header.length else entry.headerLength
  header : entry'.header.bytes = if p.offset = 0 then overlay entry.header.bytes 0 header
    else entry.header.bytes

/-- A fragment that fits is stored inside of the buffers. -/
private theorem Sound.store (h : entry.Sound) (header : List UInt8)
    {payload : List UInt8} {offset : Nat} (last : Bool) (hoffset : offset % 8 = 0)
    (hstop : offset + payload.length ≤ ipv4Max)
    (hheader : header.length ≤ 60) :
    ∃ entry', entry.store header payload offset last = some entry' ∧ entry'.Sound ∧
      entry.Stored entry' header ⟨offset, payload⟩ last := by
  have hcopy := h.copy offset payload
  unfold Reassembly.store
  rw [Region.copyIn_eq (by rw [h.data]; exact hstop), bind_some]
  generalize hentry : ({ entry with
      data := { entry.data with bytes := overlay entry.data.bytes offset payload }
      parts := ⟨offset, payload⟩ :: entry.parts } : Reassembly) = entry₀ at hcopy ⊢
  have hmem : ⟨offset, payload⟩ ∈ entry₀.parts := by
    rw [← hentry]
    exact mem_cons_self
  obtain ⟨filled, received, hfill, hsound⟩ :=
    hcopy.fill ⟨offset, payload⟩ hstop (payload.length / 8 + 1) (offset / 8) hmem
    (by show offset ≤ offset / 8 * 8; omega)
  rw [show offset + payload.length = (Part.mk offset payload).stop from rfl, hfill, bind_some]
  -- the end that a last fragment announces
  generalize hentry₁ :
    (if last = true then { ({ entry₀ with filled := filled, received := received } : Reassembly)
      with total := (Part.mk offset payload).stop }
        else { entry₀ with filled := filled, received := received }) =
    entry₁
  have hsound₁ : entry₁.Sound := by
    rw [← hentry₁]
    cases last with
    | true => exact { hsound with total := hstop }
    | false => exact hsound
  by_cases hzero : offset = 0
  · rw [if_pos hzero, Region.copyIn_eq (by rw [hsound₁.header]; omega)]
    refine ⟨_, rfl, { hsound₁ with headerLength := hheader }, ?_⟩
    cases last <;> subst hentry₁ <;> subst hentry <;>
      exact ⟨rfl, rfl, rfl, rfl, rfl, rfl, (if_pos hzero).symm, (if_pos hzero).symm⟩
  · rw [if_neg hzero]
    refine ⟨_, rfl, hsound₁, ?_⟩
    cases last <;> subst hentry₁ <;> subst hentry <;>
      exact ⟨rfl, rfl, rfl, rfl, rfl, rfl, (if_neg hzero).symm, (if_neg hzero).symm⟩

end Reassembly

/-! ## Completion -/

/-- The units below a limit have as many bytes as the limit says. -/
theorem sum_unit_bytes (total n : Nat) (h : total ≤ n * 8) :
    ∑ u ∈ Finset.range n, min 8 (total - u * 8) = total := by
  have hsums : ∀ m, ∑ u ∈ Finset.range m, min 8 (total - u * 8) = min total (m * 8) := by
    intro m
    induction m with
    | zero => simp
    | succ m ih =>
      rw [Finset.sum_range_succ, ih]
      omega
  rw [hsums]
  omega

/-- If no fragment reaches behind the end, a counter that is equal to it leaves no byte out. -/
theorem Reassembly.Sound.covered (h : entry.Sound)
    (hparts : ∀ p ∈ entry.parts, p.stop ≤ entry.total)
    (hreceived : entry.received = entry.total) {i : Nat}
    (hi : i < entry.total) : ∃ p ∈ entry.parts, p.Covers i := by
  obtain ⟨count, hcount⟩ := h.counts
  have hle : ∀ u ∈ Finset.range reassemblyUnits, count u ≤ min 8 (entry.total - u * 8) := by
    intro u _
    have h8 := hcount.le u
    rcases Nat.eq_zero_or_pos (count u) with hzero | hpos
    · omega
    -- the last byte that is counted belongs to a fragment, which does not reach behind the end
    obtain ⟨p, hp, hcovers⟩ := hcount.covered u (u * 8 + (count u - 1)) (by omega) (by omega)
    have hstop := hparts p hp
    have := hcovers.2
    omega
  have htotal := h.total
  unfold ipv4Max at htotal
  have hsum : ∑ u ∈ Finset.range reassemblyUnits, count u = ∑ u ∈ Finset.range reassemblyUnits,
      min 8 (entry.total - u * 8) := by
    rw [sum_unit_bytes entry.total reassemblyUnits (by unfold reassemblyUnits; omega),
      ← hcount.received, hreceived]
  have heq := (Finset.sum_eq_sum_iff_of_le hle).mp hsum (i / 8)
    (Finset.mem_range.mpr (by unfold reassemblyUnits; omega))
  exact hcount.covered (i / 8) i (by omega) (by omega)

/-! ## Headers -/

/-- The bytes are a header of the datagram that the reassembly is for. -/
structure Reassembly.HasHeader (entry : Reassembly) (b : Buffer) : Prop where
  length : (b 0 &&& 0x0F).toNat * 4 = entry.headerLength
  ge : 20 ≤ entry.headerLength
  source : loadBe32 b 12 = entry.source
  destination : loadBe32 b 16 = entry.destination
  identification : loadBe16 b 4 = entry.identification
  protocol : b 9 = entry.protocol

/-- The bytes of a header that name its datagram are those before the length, the fragment field and
    the checksum, and between and behind them. -/
theorem Reassembly.HasHeader.congr {b c : Buffer} (h : entry.HasHeader b)
    (hsame : ∀ i, i < 2 ∨ 4 ≤ i ∧ i < 6 ∨ 8 ≤ i ∧ i < 10 ∨ 12 ≤ i ∧ i < 20 → c i = b i) :
    entry.HasHeader c where
  length := by
    rw [hsame 0 (by decide)]
    exact h.length
  ge := h.ge
  source := by
    rw [← h.source]
    exact loadBe32_congr fun i _ _ => hsame i (by omega)
  destination := by
    rw [← h.destination]
    exact loadBe32_congr fun i _ _ => hsame i (by omega)
  identification := by
    rw [← h.identification]
    exact loadBe16_congr fun i _ _ => hsame i (by omega)
  protocol := by
    rw [hsame 9 (by decide)]
    exact h.protocol

/-- What the checks of a packet establish. -/
theorem ipv4Checks_eq_some {data : Region} (h : ipv4Checks data = some ip) :
    ip.headerLength = (data.bytes 0 &&& 0x0F).toNat * 4 ∧ 20 ≤ ip.headerLength ∧
      ip.headerLength ≤ 60 ∧
      ip.totalLength ≤ data.size ∧ ip.source = loadBe32 data.bytes 12 ∧
      ip.destination = loadBe32 data.bytes 16 ∧ ip.identification = loadBe16 data.bytes 4 ∧
      ip.protocol = data.bytes 9 := by
  unfold ipv4Checks at h
  dsimp only at h
  split at h
  · cases h
  next hchecks =>
  simp only [not_or, not_lt] at hchecks
  obtain ⟨-, hge, -, -, hsize, -⟩ := hchecks
  have hnibble : (data.bytes 0 &&& 0x0F).toNat ≤ 15 := by
    exact Nat.and_le_right
  obtain rfl := some.inj h
  exact ⟨rfl, hge, by dsimp only; omega, hsize, rfl, rfl, rfl, rfl⟩

/-- The packet of a reassembly has its header and its data. -/
theorem Reassembly.Sound.packet (h : entry.Sound) (hheader : entry.HasHeader entry.header.bytes) :
    ∃ packet, entry.packet = some packet ∧ packet.size = entry.headerLength + entry.total ∧
      entry.HasHeader packet.bytes ∧
      ∀ i, i < entry.total → packet.bytes (entry.headerLength + i) = entry.data.bytes i := by
  have hge := hheader.ge
  -- a byte that is not stored over is one of the header or of the data
  obtain ⟨packet, hpacket, hsize, hbyte⟩ : ∃ packet, entry.packet = some packet ∧
      packet.size = entry.headerLength + entry.total ∧
      ∀ i, i < 2 ∨ 4 ≤ i ∧ i < 6 ∨ 8 ≤ i ∧ i < 10 ∨ 12 ≤ i → i < entry.headerLength + entry.total →
        (slice entry.header.bytes 0 entry.headerLength ++
          slice entry.data.bytes 0 entry.total)[i]? =
          some (packet.bytes i) := by
    unfold Reassembly.packet
    rw [Region.copyOut_eq (by rw [h.header]; have := h.headerLength; omega), bind_some,
      Region.copyOut_eq (by rw [h.data]; have := h.total; omega), map_some]
    refine ⟨_, rfl, rfl, fun i hi hlt => ?_⟩
    dsimp only
    rw [storeBe16_apply _ _ _ _ (by omega), storeBe16_apply _ _ _ _ (by omega),
      storeBe16_apply _ _ _ _ (by omega),
      storeBe16_apply _ _ _ _ (by omega)]
    exact overlay_of_mem zeros 0 i _ (Nat.zero_le _) (by simpa using hlt)
  refine ⟨packet, hpacket, hsize, hheader.congr fun i hi => ?_, fun i hi => ?_⟩
  · have hmem := hbyte i (by omega) (by omega)
    rw [getElem?_append_left (by simp; omega), slice_getElem? _ _ (by omega), zero_add] at hmem
    exact (some.inj hmem).symm
  · have hmem := hbyte (entry.headerLength + i) (by omega) (by omega)
    rw [getElem?_append_right (by simp), length_slice, Nat.add_sub_cancel_left,
      slice_getElem? _ _ hi,
      zero_add] at hmem
    exact (some.inj hmem).symm

/-! ## Runs -/

/-- The stack with the packets that came in and what went up. -/
structure Host where
  stack : Stack
  received : List Region
  delivered : List Delivery

def Host.step (h : Host) (e : Receive × Region) : Option Host :=
  (h.stack.handleIpv4 e.1 e.2).map fun (stack, delivery) => {
    stack := stack
    received := e.2 :: h.received
    delivered := delivery.toList ++ h.delivered }

def freshHost : Host := ⟨⟨[], 0, 0⟩, [], []⟩

/-- The headers name the same datagram. -/
def SameDatagram (ip ip' : Ipv4Header) : Prop :=
  ip.source = ip'.source ∧ ip.destination = ip'.destination ∧
    ip.identification = ip'.identification ∧
    ip.protocol = ip'.protocol

/-- Every byte of a datagram that was reassembled was copied from a fragment of it, at its
    offset. -/
def Delivery.Copied (received : List Region) (d : Delivery) : Prop :=
  d.reassembly.isSome → ∀ i byte, (ipv4Payload d.packet d.ip)[i]? = some byte →
    ∃ data ∈ received, ∃ ip, ipv4Checks data = some ip ∧ SameDatagram ip d.ip ∧
      fragmentOffset ip ≤ i ∧
      (ipv4Payload data ip)[i - fragmentOffset ip]? = some byte

/-- The part comes from a packet that was received. -/
def Reassembly.From (entry : Reassembly) (received : List Region) (p : Part) : Prop :=
  ∃ data ∈ received, ∃ ip, ipv4Checks data = some ip ∧ entry.isFor ip ∧
    p = ⟨fragmentOffset ip, ipv4Payload data ip⟩

structure Reassembly.Ok (entry : Reassembly) (received : List Region) : Prop where
  sound : entry.Sound
  parts : ∀ p ∈ entry.parts, entry.From received p
  header : entry.headerLength ≠ 0 → entry.HasHeader entry.header.bytes

private theorem Reassembly.Ok.mono {received' : List Region} (h : entry.Ok received)
    (hsub : ∀ data ∈ received, data ∈ received') : entry.Ok received' where
  sound := h.sound
  parts p hp := by
    obtain ⟨data, hdata, ip, hrest⟩ := h.parts p hp
    exact ⟨data, hsub data hdata, ip, hrest⟩
  header := h.header

private theorem Delivery.Copied.mono {d : Delivery} {received' : List Region}
    (h : d.Copied received)
    (hsub : ∀ data ∈ received, data ∈ received') : d.Copied received' := by
  intro hsome i byte hbyte
  obtain ⟨data, hdata, hrest⟩ := h hsome i byte hbyte
  exact ⟨data, hsub data hdata, hrest⟩

def Stack.Ok (s : Stack) (received : List Region) : Prop :=
  ∀ entry ∈ s.reassemblies, entry.Ok received

/-- `reassembly_find` gives a reassembly for the datagram, one from the list or a new one. -/
theorem Stack.Ok.reassemblyFind {s : Stack} (h : s.Ok received) (ip : Ipv4Header) (env : Receive) :
    (s.reassemblyFind ip env).2.Ok received ∧ ∀ i, (s.reassemblyFind ip env).1 = some i →
      ∃ entry, (s.reassemblyFind ip env).2.reassemblies[i]? = some entry ∧ entry.isFor ip ∧
        (entry ∈ s.reassemblies ∧ env.now < entry.deadlineNs ∨ entry.parts = [] ∧
          entry.total = 0) := by
  have hexpire : (s.reassemblyExpire env.now).Ok received :=
    fun entry hentry => h entry (mem_filter.mp hentry).1
  unfold Stack.reassemblyFind
  dsimp only
  split
  · next i hi =>
    refine ⟨hexpire, fun j hj => ?_⟩
    obtain rfl := some.inj hj
    obtain ⟨hlt, hfor, -⟩ := findIdx?_eq_some_iff_getElem.mp hi
    refine ⟨_, getElem?_eq_getElem hlt, hfor, .inl ?_⟩
    obtain ⟨hmem, hdeadline⟩ := mem_filter.mp (getElem_mem hlt)
    exact ⟨hmem, by simpa using hdeadline⟩
  -- Expiring and dropping the oldest only take datagrams away.
  · have hdrop : (s.reassemblyExpire env.now).dropOldest.Ok received := by
      intro entry hentry
      unfold Stack.dropOldest at hentry
      split at hentry
      · exact hexpire entry hentry
      split at hentry
      · exact hexpire entry hentry
      · exact hexpire entry (mem_of_mem_dropLast hentry)
    split
    · exact ⟨hdrop, fun i hi => nomatch hi⟩
    next memory _ =>
    have hnew : (newReassembly ip env.now memory).Ok received :=
      ⟨sound_newReassembly ip env.now memory, (fun p hp => nomatch hp), fun hne => absurd rfl hne⟩
    refine ⟨fun entry hentry => ?_, fun i hi => ?_⟩
    · rcases mem_cons.mp hentry with rfl | hentry
      · exact hnew
      · exact hdrop entry hentry
    · obtain rfl := some.inj hi
      exact ⟨_, rfl, by simp [Reassembly.isFor, newReassembly], .inr ⟨rfl, rfl⟩⟩

/-- No fragment of the datagram, this one included, reaches behind the end that the last one
    announces. -/
def Stack.Agrees (s : Stack) (now : Nat) (ip : Ipv4Header) (length : Nat) : Prop :=
  ∀ entry ∈ s.reassemblies, entry.isFor ip → now < entry.deadlineNs →
    let stop := fragmentOffset ip + length
    let total := if lastFragment ip then stop else entry.total
    total ≠ 0 → stop ≤ total ∧ ∀ p ∈ entry.parts, p.stop ≤ total

private theorem Reassembly.isFor_iff :
    entry.isFor ip ↔ entry.source = ip.source ∧ entry.destination = ip.destination ∧
      entry.identification = ip.identification ∧ entry.protocol = ip.protocol := by
  simp [Reassembly.isFor, and_assoc]

private theorem Reassembly.Stored.isFor {entry' : Reassembly} {header : List UInt8}
    {p : Part} {last : Bool}
    (h : entry.Stored entry' header p last) (ip : Ipv4Header) :
    entry'.isFor ip = entry.isFor ip := by
  unfold Reassembly.isFor
  rw [h.source, h.destination, h.identification, h.protocol]

/-- A fragment of the datagram is stored. -/
theorem Reassembly.Ok.store (h : entry.Ok received) {data : Region}
    (hdata : data ∈ received) (hchecks : ipv4Checks data = some ip) (hfor : entry.isFor ip)
    (hfits : fragmentOffset ip + (ipv4Payload data ip).length ≤ ipv4Max) :
    ∃ entry', entry.store (slice data.bytes 0 ip.headerLength) (ipv4Payload data ip)
      (fragmentOffset ip)
        (lastFragment ip) = some entry' ∧ entry'.Ok received ∧
      entry.Stored entry' (slice data.bytes 0 ip.headerLength)
        ⟨fragmentOffset ip, ipv4Payload data ip⟩
        (lastFragment ip) := by
  obtain ⟨hlength, hge, hle, -, hsource, hdestination, hidentification, hprotocol⟩ :=
    ipv4Checks_eq_some hchecks
  obtain ⟨entry', hstore, hsound, hstored⟩ := h.sound.store (slice data.bytes 0 ip.headerLength)
    (lastFragment ip) (by unfold fragmentOffset; omega) hfits (by rw [length_slice]; exact hle)
  -- The parts are those before and this fragment; the header is that of the first one.
  refine ⟨entry', hstore, ⟨hsound, fun p hp => ?_, fun hne => ?_⟩, hstored⟩
  · rw [hstored.parts] at hp
    have hfrom : entry.From received p := by
      rcases mem_cons.mp hp with rfl | hp
      · exact ⟨data, hdata, ip, hchecks, hfor, rfl⟩
      · exact h.parts p hp
    obtain ⟨data', hdata', ip', hchecks', hfor', hp'⟩ := hfrom
    exact ⟨data', hdata', ip', hchecks', by rw [hstored.isFor]; exact hfor', hp'⟩
  · by_cases hzero : fragmentOffset ip = 0
    · -- the header is the one of this packet
      have hheaderLength := hstored.headerLength
      rw [if_pos hzero, length_slice] at hheaderLength
      have hbytes : ∀ i, i < 20 → entry'.header.bytes i = data.bytes i := by
        intro i hi
        rw [hstored.header, if_pos hzero]
        have hmem := overlay_of_mem entry.header.bytes 0 i (slice data.bytes 0 ip.headerLength)
          (Nat.zero_le _) (by simp; omega)
        rw [Nat.sub_zero, slice_getElem? _ _ (by omega), Nat.zero_add] at hmem
        exact (some.inj hmem).symm
      obtain ⟨hs, hd, hi, hp⟩ := Reassembly.isFor_iff.mp ((hstored.isFor ip).trans hfor)
      have hheader : entry'.HasHeader data.bytes := by
        refine ⟨by rw [hheaderLength, hlength], by rw [hheaderLength]; exact hge, ?_, ?_, ?_, ?_⟩
        · rw [hs, hsource]
        · rw [hd, hdestination]
        · rw [hi, hidentification]
        · rw [hp, hprotocol]
      exact hheader.congr fun i hi => hbytes i (by omega)
    · have hheaderLength := hstored.headerLength
      have hheader := hstored.header
      rw [if_neg hzero] at hheaderLength hheader
      rw [hheaderLength] at hne
      obtain ⟨hlength', hge', hs, hd, hi, hp⟩ := h.header hne
      rw [hheader]
      exact ⟨hheaderLength ▸ hlength', hheaderLength ▸ hge', hstored.source ▸ hs,
        hstored.destination ▸ hd,
        hstored.identification ▸ hi, hstored.protocol ▸ hp⟩

/-- A fragment is stored inside of its datagram, and completes it at most once. -/
private theorem Stack.Ok.reassemble {s : Stack} (h : s.Ok received) (env : Receive) {data : Region}
    (hdata : data ∈ received) (hchecks : ipv4Checks data = some ip) :
    ∃ s' done, s.reassemble ip env (slice data.bytes 0 ip.headerLength) (ipv4Payload data ip) =
      some (s', done) ∧
      s'.Ok received ∧ ∀ entry packet, done = some (entry, packet) →
        entry.Ok received ∧ entry.complete ∧
        entry.packet = some packet ∧ (s.Agrees env.now ip (ipv4Payload data ip).length →
          ∀ p ∈ entry.parts, p.stop ≤ entry.total) := by
  unfold Stack.reassemble
  split
  · exact ⟨_, none, rfl, h, fun _ _ hdone => nomatch hdone⟩
  next hfits =>
  have hstop : fragmentOffset ip + (ipv4Payload data ip).length ≤ ipv4Max := by
    simp only [fragmentFits, Bool.not_eq_true', Bool.not_eq_false, Bool.and_eq_true,
      decide_eq_true_eq] at hfits
    omega
  -- The fragment goes to a datagram that was there, or to a new one without fragments.
  obtain ⟨hfind, hentry⟩ := h.reassemblyFind ip env
  generalize s.reassemblyFind ip env = found at hfind hentry
  obtain ⟨place, s'⟩ := found
  cases place with
  | none => exact ⟨s', none, rfl, hfind, fun _ _ hdone => nomatch hdone⟩
  | some i =>
    obtain ⟨entry, hget, hfor, horigin⟩ := hentry i rfl
    have hmem : entry ∈ s'.reassemblies := mem_of_getElem? hget
    obtain ⟨entry', hstore, hok, hstored⟩ := (hfind entry hmem).store hdata hchecks hfor hstop
    dsimp only
    rw [hget, bind_some, hstore, bind_some]
    split
    · refine ⟨_, none, rfl, fun e he => ?_, fun _ _ hdone => nomatch hdone⟩
      rcases mem_or_eq_of_mem_set he with he | rfl
      · exact hfind e he
      · exact hok
    next hcomplete =>
    have hcomplete' : entry'.complete = true := by simpa using hcomplete
    have herase : ∀ e ∈ s'.reassemblies.eraseIdx i, e.Ok received := fun e he =>
      hfind e (mem_of_mem_eraseIdx he)
    split
    · obtain ⟨⟨htotal, hne⟩, -⟩ : (entry'.total ≠ 0 ∧ entry'.headerLength ≠ 0) ∧ _ := by
        simpa only [Reassembly.complete, Bool.and_eq_true, bne_iff_ne] using hcomplete'
      obtain ⟨packet, hpacket, -⟩ := hok.sound.packet (hok.header hne)
      rw [hpacket]
      refine ⟨_, some (entry', packet), rfl, herase, fun e p hdone => ?_⟩
      obtain ⟨rfl, rfl⟩ := Prod.mk.inj (some.inj hdone)
      refine ⟨hok, hcomplete', hpacket, fun hagrees => ?_⟩
      rw [hstored.total] at htotal
      rw [hstored.parts, hstored.total]
      rcases horigin with ⟨hin, hdeadline⟩ | ⟨hparts, hzero⟩
      · obtain ⟨hnew, hold⟩ := hagrees entry hin hfor hdeadline htotal
        intro p hp
        rcases mem_cons.mp hp with rfl | hp
        · exact hnew
        · exact hold p hp
      · -- the first fragment of a datagram that is complete at once is a last one
        rw [hparts]
        intro p hp
        obtain rfl := mem_singleton.mp hp
        split at htotal
        · next hlast => rw [if_pos hlast]
        · exact absurd hzero htotal
    · exact ⟨_, none, rfl, herase, fun _ _ hdone => nomatch hdone⟩

private theorem Stack.accept_spec (s : Stack) (env : Receive) (data : Region) :
    (s.accept env data).1.reassemblies = s.reassemblies ∧
      ∀ ip, (s.accept env data).2 = some ip → ipv4Checks data = some ip := by
  unfold Stack.accept
  split
  · exact ⟨rfl, fun _ hip => nomatch hip⟩
  split
  · exact ⟨rfl, fun _ hip => nomatch hip⟩
  next ip hchecks =>
  refine ⟨rfl, fun ip' hip => ?_⟩
  dsimp only at hip
  split at hip
  · rw [hchecks, hip]
  · cases hip

/-- What a reassembly hands up has only bytes of fragments. -/
theorem Reassembly.Ok.copied (h : entry.Ok received) {packet : Region}
    (hcomplete : entry.complete) (hpacket : entry.packet = some packet)
    (hparts : ∀ p ∈ entry.parts, p.stop ≤ entry.total) (hchecks : ipv4Checks packet = some ip) :
    Delivery.Copied received ⟨packet, ip, some entry⟩ := by
  intro _ i byte hbyte
  simp only [Reassembly.complete, Bool.and_eq_true, bne_iff_ne, beq_iff_eq] at hcomplete
  obtain ⟨⟨-, hne⟩, hreceived⟩ := hcomplete
  obtain ⟨packet', hpacket', hsize, hheader, hdata⟩ := h.sound.packet (h.header hne)
  obtain rfl : packet' = packet := some.inj (hpacket'.symm.trans hpacket)
  obtain ⟨hlength, -, -, htotal, hs, hd, hid, hp⟩ := ipv4Checks_eq_some hchecks
  have hheaderLength : ip.headerLength = entry.headerLength := hlength.trans hheader.length
  -- the byte is one of the data of the reassembly
  have hi : i < ip.totalLength - ip.headerLength := by
    have := (List.getElem?_eq_some_iff.mp hbyte).1
    simpa [ipv4Payload] using this
  have hlt : i < entry.total := by omega
  rw [show ipv4Payload packet' ip = slice packet'.bytes ip.headerLength
    (ip.totalLength - ip.headerLength) from rfl,
    slice_getElem? _ _ hi, hheaderLength, hdata i hlt] at hbyte
  -- which some fragment has
  obtain ⟨p, hpmem, hle, hpbyte⟩ := h.sound.copied i (h.sound.covered hparts hreceived hlt)
  obtain ⟨data, hmem, ip', hchecks', hfor, rfl⟩ := h.parts p hpmem
  obtain ⟨hs', hd', hid', hp'⟩ := Reassembly.isFor_iff.mp hfor
  refine ⟨data, hmem, ip', hchecks', ⟨?_, ?_, ?_, ?_⟩, hle, hpbyte.trans hbyte⟩
  · rw [hs, hheader.source, hs']
  · rw [hd, hheader.destination, hd']
  · rw [hid, hheader.identification, hid']
  · rw [hp, hheader.protocol, hp']

/-- What the fragments received so far and the packet have to agree about. -/
def Host.Agrees (h : Host) (e : Receive × Region) : Prop := match ipv4Checks e.2 with
  | none => True
  | some ip => h.stack.Agrees e.1.now ip (ip.totalLength - ip.headerLength)

/-- Every packet is taken, and what goes up was received. -/
private theorem Host.step_spec {h : Host} (hok : h.stack.Ok h.received) (e : Receive × Region) :
    ∃ h', h.step e = some h' ∧ h'.stack.Ok h'.received ∧
      (h.Agrees e → (∀ d ∈ h.delivered, d.Copied h.received) → ∀ d ∈ h'.delivered,
        d.Copied h'.received) := by
  obtain ⟨env, data⟩ := e
  have hsub : ∀ d ∈ h.received, d ∈ data :: h.received := fun d hd => mem_cons_of_mem _ hd
  -- One more packet has been received; what was copied from the others still is.
  have hok' : h.stack.Ok (data :: h.received) := fun entry hentry => (hok entry hentry).mono hsub
  have hold : (∀ d ∈ h.delivered, d.Copied h.received) → ∀ d ∈ h.delivered,
      d.Copied (data :: h.received) :=
    fun hcopied d hd => (hcopied d hd).mono hsub
  obtain ⟨haccept, hchecks⟩ := h.stack.accept_spec env data
  unfold Host.step Stack.handleIpv4
  dsimp only
  generalize h.stack.accept env data = admitted at haccept hchecks
  obtain ⟨s, ip⟩ := admitted
  have hs : s.Ok (data :: h.received) := fun entry hentry => hok' entry (haccept ▸ hentry)
  cases ip with
  | none => exact ⟨_, rfl, hs, fun _ => hold⟩
  | some ip =>
    have hchecks' := hchecks ip rfl
    dsimp only
    split
    · obtain ⟨s', done, hreassemble, hs', hdone⟩ := hs.reassemble env mem_cons_self hchecks'
      rw [hreassemble]
      cases done with
      | none => exact ⟨_, rfl, hs', fun _ => hold⟩
      | some whole =>
        obtain ⟨entry, packet⟩ := whole
        obtain ⟨hentry, hcomplete, hpacket, hparts⟩ := hdone entry packet rfl
        obtain ⟨haccept', hchecked⟩ := s'.accept_spec env packet
        refine ⟨_, rfl, fun e he => hs' e (haccept' ▸ he), fun hagrees hcopied d hd => ?_⟩
        simp only [toList, mem_append] at hd
        rcases hd with hd | hd
        · cases hip : (s'.accept env packet).2 with
          | none =>
            rw [hip] at hd
            cases hd
          | some ip' =>
            rw [hip] at hd
            obtain rfl := mem_singleton.mp hd
            have hagrees' : s.Agrees env.now ip (ipv4Payload data ip).length := by
              unfold Host.Agrees at hagrees
              rw [show (env, data).2 = data from rfl, hchecks'] at hagrees
              intro entry hmem
              rw [show (ipv4Payload data ip).length = ip.totalLength - ip.headerLength
                from length_slice ..]
              exact hagrees entry (haccept ▸ hmem)
            exact hentry.copied hcomplete hpacket (hparts hagrees') (hchecked ip' hip)
        · exact hold hcopied d hd
    · refine ⟨_, rfl, hs, fun _ hcopied d hd => ?_⟩
      rcases mem_cons.mp hd with rfl | hd
      · intro hsome
        cases hsome
      · exact hold hcopied d hd

instance (s : Stack) (now : Nat) (ip : Ipv4Header)
    (length : Nat) : Decidable (s.Agrees now ip length) :=
  inferInstanceAs (Decidable (∀ entry ∈ s.reassemblies, entry.isFor ip → now < entry.deadlineNs →
    (if lastFragment ip then fragmentOffset ip + length else entry.total) ≠ 0 →
      fragmentOffset ip + length ≤
        (if lastFragment ip then fragmentOffset ip + length else entry.total) ∧
        ∀ p ∈ entry.parts,
          p.stop ≤ (if lastFragment ip then fragmentOffset ip + length else entry.total)))

instance (h : Host) (e : Receive × Region) : Decidable (h.Agrees e) :=
  match hchecks : ipv4Checks e.2 with
  | none => isTrue (by unfold Host.Agrees; rw [hchecks]; trivial)
  | some ip => decidable_of_iff (h.stack.Agrees e.1.now ip (ip.totalLength - ip.headerLength))
      (by unfold Host.Agrees; rw [hchecks])

def Host.Ok (h : Host) : Prop := h.stack.Ok h.received

def Host.AllCopied (h : Host) : Prop := h.Ok ∧ ∀ d ∈ h.delivered, d.Copied h.received

/-- No packet makes a copy leave its buffer, and in a run in which the fragments of each datagram
    agree about its end, every byte of a datagram that was reassembled comes from one of its
    fragments. -/
theorem Host.copied_of_run (events : List (Receive × Region)) :
    ∃ h, Steps.run Host.step freshHost events = some h ∧
      (Steps.Always Host.step Host.Agrees freshHost events → ∀ d ∈ h.delivered,
        d.Copied h.received) := by
  have hfresh : freshHost.Ok := fun _ hentry => nomatch hentry
  have hexists :
      ∀ (h : Host) (e : Receive × Region), h.Ok → True → ∃ h', h.step e = some h' ∧ h'.Ok := by
    intro h e hok _
    obtain ⟨h', hstep, hok', -⟩ := Host.step_spec hok e
    exact ⟨h', hstep, hok'⟩
  have hstep : ∀ (h : Host) (e : Receive × Region) (h' : Host), h.AllCopied → h.Agrees e →
      h.step e = some h' →
      h'.AllCopied := by
    intro h e h' hinv hcond hstep
    obtain ⟨h'', hstep', hok, hcopied⟩ := Host.step_spec hinv.1 e
    obtain rfl := Option.some.inj (hstep'.symm.trans hstep)
    exact ⟨hok, hcopied hcond hinv.2⟩
  obtain ⟨h, hrun, -⟩ :=
    Steps.run_exists hexists hfresh (Steps.Always.of_forall (fun _ _ _ => trivial) freshHost)
  exact ⟨h, hrun,
    fun hagrees => (Steps.run_invariant hstep ⟨hfresh, fun _ hd => nomatch hd⟩ hagrees hrun).2⟩

/-! Fragments of a UDP datagram with eight bytes each. -/

def packetOf (bytes : List UInt8) : Region := ⟨bytes.length, fun i => bytes.getD i 0⟩

/-- A fragment from 10.0.0.1 to 10.0.0.2; `high` and `low` are its fragment field, `sum` its
    checksum. -/
def fragmentPacket (high low sumHigh sumLow : UInt8) (payload : List UInt8) : Region :=
  packetOf ([0x45, 0, 0, 28, 0, 7, high, low, 64, 17, sumHigh, sumLow, 10, 0, 0, 1, 10, 0,
    0, 2] ++ payload)

def willing : Receive := ⟨0, some fun _ => 0xAA, true, fun _ => true⟩

/-- Two fragments, the second one the last. -/
def pairEvents : List (Receive × Region) :=
  [(willing, fragmentPacket 0x20 0 0x46 0xC8 [1, 2, 3, 4, 5, 6, 7, 8]),
    (willing, fragmentPacket 0 1 0x66 0xC7 [9, 10, 11, 12, 13, 14, 15, 16])]

/-- A packet of two fragments is put together. -/
theorem pairEvents_copied :
    ∃ h, Steps.run Host.step freshHost pairEvents = some h ∧ h.delivered.length = 1 ∧
    ∀ d ∈ h.delivered, d.Copied h.received := by
  obtain ⟨h, hrun, hcopied⟩ := Host.copied_of_run pairEvents
  have hdelivered : (Steps.run Host.step freshHost pairEvents).map
      (fun h => h.delivered.length) = some 1 := by
    decide +kernel
  rw [hrun] at hdelivered
  exact ⟨h, hrun, Option.some.inj hdelivered, hcopied (by decide +kernel)⟩

/-- The first and the third unit, the third one the last, and a unit behind the end. -/
def gapEvents : List (Receive × Region) :=
  [(willing, fragmentPacket 0x20 0 0x46 0xC8 [1, 2, 3, 4, 5, 6, 7, 8]),
    (willing, fragmentPacket 0 2 0x66 0xC6 [9, 10, 11, 12, 13, 14, 15, 16]),
    (willing, fragmentPacket 0x20 3 0x46 0xC5 [17, 18, 19, 20, 21, 22, 23, 24])]

/-- No packet has a byte of its datagram for the offset. -/
def lacks (i : Nat) (data : Region) : Bool := match ipv4Checks data with
  | none => true
  | some ip =>
    decide (i < fragmentOffset ip) || ((ipv4Payload data ip)[i - fragmentOffset ip]?).isNone

private theorem not_copied_of_lacks {d : Delivery} {i : Nat}
    (h : received.all (lacks i) = true) (hd : d.reassembly.isSome = true)
    (hbyte : ((ipv4Payload d.packet d.ip)[i]?).isSome = true) : ¬d.Copied received := by
  intro hcopied
  obtain ⟨byte, hbyte⟩ := isSome_iff_exists.mp hbyte
  obtain ⟨data, hmem, ip, hchecks, -, hle, hsome⟩ := hcopied hd i byte hbyte
  have hlacks := all_eq_true.mp h data hmem
  unfold lacks at hlacks
  rw [hchecks] at hlacks
  simp [hsome, not_lt.mpr hle] at hlacks

/-- The second unit of the datagram is what the memory had in it before. -/
theorem gapEvents_not_copied : ∃ h, Steps.run Host.step freshHost gapEvents = some h ∧
    ∃ d ∈ h.delivered, ¬d.Copied h.received := by
  have hrun : (Steps.run Host.step freshHost gapEvents).any (fun h => h.received.all (lacks 8) &&
      h.delivered.any fun d => d.reassembly.isSome && ((ipv4Payload d.packet d.ip)[8]?).isSome) =
        true := by
    decide +kernel
  obtain ⟨h, hh, hrun⟩ := (Option.any_eq_true _ _).mp hrun
  rw [Bool.and_eq_true, List.any_eq_true] at hrun
  obtain ⟨hlacks, d, hd, hprop⟩ := hrun
  rw [Bool.and_eq_true] at hprop
  exact ⟨h, hh, d, hd, not_copied_of_lacks hlacks hprop.1 hprop.2⟩

end Tunix.Net
