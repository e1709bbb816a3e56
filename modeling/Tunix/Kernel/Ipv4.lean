import Tunix.ForStd.Region

/-!
# Receiving IPv4

`handle_ipv4` of `kernel/net/net.c` up to the protocols above it, and the reassembly of fragments
(`reassembly_expire`, `reassembly_find`, `reassemble`). The arrays of a `struct reassembly` are
regions, so that a copy that would leave one of them has no result. What the allocator and the clock
answer is given with a packet; the memory of a new reassembly has arbitrary contents, since only
what stands before `data` is cleared.
-/

namespace Tunix.Net

open Bytes

/-- `NET_IPV4_MAX`: the longest packet. -/
def ipv4Max : Nat := 65535
/-- `REASSEMBLY_LIMIT`: how many packets are put together at a time. -/
def reassemblyLimit : Nat := 64
/-- `REASSEMBLY_TIMEOUT_NS`. -/
def reassemblyTimeoutNs : Nat := 30000000000
/-- `IPV4_MORE_FRAGMENTS`. -/
def ipv4MoreFragments : UInt16 := 0x2000
/-- `IPV4_OFFSET_MASK`. -/
def ipv4OffsetMask : UInt16 := 0x1FFF

/-! ## Headers -/

/-- The carries of a checksum are added back in. -/
def foldCarries : Nat → Nat → Nat
  | 0, sum => sum
  | turns + 1, sum => if sum / 65536 = 0 then sum else foldCarries turns (sum % 65536 + sum / 65536)

/-- The sum of the 16-bit words of a list of bytes. -/
def wordSum : List UInt8 → Nat
  | [] => 0
  | [a] => a.toNat * 256
  | a :: b :: rest => a.toNat * 256 + b.toNat + wordSum rest

/-- `net_checksum`. A sum of 32 bits has no carry left after three turns. -/
def netChecksum (data : List UInt8) : UInt16 := ~~~UInt16.ofNat (foldCarries 3 (wordSum data))

/-- A header that passed the checks, with fields in host order where they are numbers. -/
structure Ipv4Header where
  source : UInt32
  destination : UInt32
  identification : UInt16
  protocol : UInt8
  fragment : UInt16
  headerLength : Nat
  totalLength : Nat
deriving DecidableEq

/-- The checks of `handle_ipv4` for a packet that is long enough for a header. -/
def ipv4Checks (data : Region) : Option Ipv4Header :=
  let b := data.bytes
  let headerLength := (b 0 &&& 0x0F).toNat * 4
  let totalLength := (loadBe16 b 2).toNat
  if b 0 >>> 4 ≠ 4 ∨ headerLength < 20 ∨ data.size < headerLength ∨ totalLength < headerLength ∨
      data.size < totalLength ∨ netChecksum (slice b 0 headerLength) ≠ 0 then none
  else some {
    source := loadBe32 b 12
    destination := loadBe32 b 16
    identification := loadBe16 b 4
    protocol := b 9
    fragment := loadBe16 b 6
    headerLength := headerLength
    totalLength := totalLength }

/-! ## Reassembly -/

/-- A fragment as it was copied into a reassembly. -/
structure Part where
  offset : Nat
  payload : List UInt8
deriving DecidableEq

/-- The byte behind a fragment. -/
def Part.stop (p : Part) : Nat := p.offset + p.payload.length

/-- `struct reassembly`: a packet of which some fragments have come. -/
structure Reassembly where
  source : UInt32
  destination : UInt32
  identification : UInt16
  protocol : UInt8
  headerLength : Nat
  deadlineNs : Nat
  total : Nat
  received : Nat
  header : Region
  filled : Region
  data : Region
  /-- The fragments copied so far, which the code does not keep. -/
  parts : List Part

/-- The packets that are being put together, and the counts of those that were lost. -/
structure Stack where
  reassemblies : List Reassembly
  reassemblyCount : Nat
  stackDrop : Nat

/-- What is answered while a packet is handled. -/
structure Receive where
  now : Nat
  /-- The memory that `kmalloc` gives for a reassembly. -/
  memory : Option Buffer
  /-- `kmalloc` has memory for the whole packet. -/
  packetMemory : Bool
  accept : UInt32 → Bool

variable (entry : Reassembly) (s : Stack) (ip : Ipv4Header)

/-- `reassembly_expire`. -/
def Stack.reassemblyExpire (now : Nat) : Stack :=
  let expired := s.reassemblies.countP fun entry => entry.deadlineNs ≤ now
  { reassemblies := s.reassemblies.filter fun entry => now < entry.deadlineNs
    reassemblyCount := s.reassemblyCount - expired
    stackDrop := s.stackDrop + expired }

/-- The reassembly is the one for the datagram of a header. -/
def Reassembly.isFor : Bool :=
  entry.source == ip.source && entry.destination == ip.destination &&
    entry.identification == ip.identification && entry.protocol == ip.protocol

/-- A packet before its first fragment, in memory that holds anything. -/
def newReassembly (now : Nat) (memory : Buffer) : Reassembly where
  source := ip.source
  destination := ip.destination
  identification := ip.identification
  protocol := ip.protocol
  headerLength := 0
  deadlineNs := now + reassemblyTimeoutNs
  total := 0
  received := 0
  header := ⟨60, zeros⟩
  filled := ⟨ipv4Max / 64 + 1, zeros⟩
  data := ⟨ipv4Max, memory⟩
  parts := []

/-- The last reassembly of the list makes room if there are too many. -/
def Stack.dropOldest : Stack :=
  if s.reassemblyCount < reassemblyLimit then s
  else if s.reassemblies.isEmpty then { s with stackDrop := s.stackDrop + 1 }
  else { s with
    stackDrop := s.stackDrop + 1
    reassemblies := s.reassemblies.dropLast
    reassemblyCount := s.reassemblyCount - 1 }

/-- `reassembly_find`: where the reassembly is in the list. -/
def Stack.reassemblyFind (env : Receive) : Option Nat × Stack :=
  let s := s.reassemblyExpire env.now
  match s.reassemblies.findIdx? (·.isFor ip) with
  | some i => (some i, s)
  | none =>
    let s := s.dropOldest
    match env.memory with
    | none => (none, s)
    | some memory => (some 0, { s with
        reassemblies := newReassembly ip env.now memory :: s.reassemblies
        reassemblyCount := s.reassemblyCount + 1 })

/-- The loop over the 8-byte units of a fragment that ends at `stop`. -/
def Reassembly.fill (stop : Nat) : Nat → Nat → Reassembly → Option Reassembly
  | 0, _, entry => some entry
  | turns + 1, unit, entry =>
    if unit * 8 < stop then
      if bitTest entry.filled.bytes unit then fill stop turns (unit + 1) entry
      else
        (entry.filled.setBit unit).bind fun filled =>
          fill stop turns (unit + 1) { entry with
            filled := filled
            received := entry.received + (min (unit * 8 + 8) stop - unit * 8) }
    else some entry

/-- A fragment is copied into its reassembly. -/
def Reassembly.store (header payload : List UInt8) (offset : Nat) (last : Bool) :
    Option Reassembly :=
  let stop := offset + payload.length
  (entry.data.copyIn offset payload).bind fun data =>
    (Reassembly.fill stop (payload.length / 8 + 1) (offset / 8)
      { entry with data := data, parts := ⟨offset, payload⟩ :: entry.parts }).bind fun entry =>
      let entry := if last then { entry with total := stop } else entry
      if offset = 0 then
        (entry.header.copyIn 0 header).map fun copied =>
          { entry with header := copied, headerLength := header.length }
      else some entry

/-- A datagram is complete as far as the counters say. -/
def Reassembly.complete : Bool :=
  entry.total != 0 && entry.headerLength != 0 && entry.received == entry.total

/-- The packet that a complete reassembly makes. -/
def Reassembly.packet : Option Region :=
  (entry.header.copyOut 0 entry.headerLength).bind fun header =>
    (entry.data.copyOut 0 entry.total).map fun data =>
      let whole := entry.headerLength + entry.total
      let b := overlay zeros 0 (header ++ data)
      let b := storeBe16 b 2 (UInt16.ofNat whole)
      let b := storeBe16 b 6 0
      let b := storeBe16 b 10 0
      ⟨whole, storeBe16 b 10 (netChecksum (slice b 0 entry.headerLength))⟩

/-- Where the fragment goes; the field counts in eight bytes. -/
def fragmentOffset : Nat := (ip.fragment &&& ipv4OffsetMask).toNat * 8
/-- No fragment comes behind it. -/
def lastFragment : Bool := ip.fragment &&& ipv4MoreFragments == 0

/-- The fragment has a length of whole units or is the last one, and fits. -/
def fragmentFits (length : Nat) : Bool := !(!lastFragment ip && length % 8 != 0) && length != 0 &&
    decide (fragmentOffset ip + length + ip.headerLength ≤ ipv4Max)

/-- `reassemble`: the reassembly that was completed, with its packet, is handed up. -/
def Stack.reassemble (env : Receive) (header payload : List UInt8) :
    Option (Stack × Option (Reassembly × Region)) :=
  if !fragmentFits ip payload.length then some ({ s with stackDrop := s.stackDrop + 1 }, none)
  else
    match s.reassemblyFind ip env with
    | (none, s) => some (s, none)
    | (some i, s) =>
      (s.reassemblies[i]?).bind fun entry =>
        (entry.store header payload (fragmentOffset ip) (lastFragment ip)).bind fun entry =>
          if !entry.complete then some ({ s with reassemblies := s.reassemblies.set i entry }, none)
          else
            let s := { s with
              reassemblies := s.reassemblies.eraseIdx i
              reassemblyCount := s.reassemblyCount - 1 }
            if env.packetMemory then entry.packet.map fun packet => (s, some (entry, packet))
            else some (s, none)

/-- What goes up to the protocols: a packet, with the reassembly it comes from if it was in
    fragments. -/
structure Delivery where
  packet : Region
  ip : Ipv4Header
  reassembly : Option Reassembly

/-- The checks that a packet passes before anything looks into it, with the count of those that
    fail. -/
def Stack.accept (s : Stack) (env : Receive) (data : Region) : Stack × Option Ipv4Header :=
  if data.size < 20 then (s, none)
  else
    match ipv4Checks data with
    | none => ({ s with stackDrop := s.stackDrop + 1 }, none)
    | some ip => (s, if env.accept ip.destination then some ip else none)

/-- The packet is not a whole one. -/
def isFragment : Bool := ip.fragment &&& (ipv4MoreFragments ||| ipv4OffsetMask) != 0

/-- The payload that the lengths in the header give. -/
def ipv4Payload (data : Region) (ip : Ipv4Header) : List UInt8 :=
  slice data.bytes ip.headerLength (ip.totalLength - ip.headerLength)

/-- `handle_ipv4`. A packet that was reassembled comes by here again; its fragment field is zero. -/
def Stack.handleIpv4 (env : Receive) (data : Region) : Option (Stack × Option Delivery) :=
  match s.accept env data with
  | (s, none) => some (s, none)
  | (s, some ip) =>
    if isFragment ip then
      (s.reassemble ip env (slice data.bytes 0 ip.headerLength) (ipv4Payload data ip)).map
        fun (s, done) =>
        match done with
        | none => (s, none)
        | some (entry, packet) =>
          let (s, ip) := s.accept env packet
          (s, ip.map fun ip => ⟨packet, ip, some entry⟩)
    else some (s, some ⟨data, ip, none⟩)

end Tunix.Net
