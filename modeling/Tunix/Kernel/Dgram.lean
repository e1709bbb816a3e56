import Tunix.ForStd.Objects

/-!
# Datagram sockets

`kernel/ipc/unix_socket.c`, the part about datagram sockets: names, peers and the release of a
socket. Every operation holds `unix_lock`. A socket lives as long as it has references or is named
as the peer of a socket. Reading or writing a socket that has been freed, and freeing it again, have
no result.
-/

namespace Tunix.Dgram

/-- `UNIX_DGRAM_BYTES_MAX` and `UNIX_DGRAM_COUNT_MAX`. -/
def bytesMax : Nat := 256 * 1024
/-- `UNIX_DGRAM_COUNT_MAX`: the longest queue. -/
def countMax : Nat := 512

/-- `struct unix_dgram`, without the sender's credentials and the data. -/
structure Message where
  length : Nat
  sender : String

/-- `struct unix_socket`, the fields of a datagram socket. -/
structure Socket where
  /-- An `int` of the source; memory has no room for 2^31 files. -/
  refs : Nat
  /-- An `int` as well: each is a socket that names this one. -/
  peerRefs : Nat
  rx : List Message
  rxBytes : Nat
  dgramPeer : Option Nat
  path : String
  key : Option String

/-- The sockets, the list of those with a name, and the messages. -/
structure State where
  sockets : Objects Socket
  /-- `listener_list`. -/
  listeners : List Nat
  /-- For each socket that was freed, its references and the number of sockets that named it then;
      not in the kernel's state. -/
  freed : List (Nat × Nat)

/-- No socket yet. -/
def State.initial : State := ⟨Objects.empty, [], []⟩

/-- `struct tunix_sockaddr_un` after `copy_path`, which accepts no empty name, and the key that the
    name is known by. -/
structure Address where
  path : String
  key : String
  path_ne : path ≠ ""

/-- The error numbers of the calls. -/
inductive Errno
  | EINVAL
  | EADDRINUSE
  | EAGAIN
  | ECONNREFUSED
  | ENOTCONN
  | EMSGSIZE
  | ENOBUFS
deriving DecidableEq

variable (s : State)

/-- The sockets that name one as their peer. -/
def State.namers (id : Nat) : Nat := s.sockets.pointersTo Socket.dgramPeer id

/-- A socket is replaced. -/
def State.set (s : State) (id : Nat) (socket : Socket) : State :=
  { s with sockets := s.sockets.set id socket }

/-- `kfree` of a socket, after its key. -/
def kfree (id : Nat) : Option State := (s.sockets.object id).bind fun socket =>
    (s.sockets.free id).map fun sockets =>
      { s with sockets := sockets, freed := s.freed ++ [(socket.refs, s.namers id)] }

/-- `unix_socket_create`. -/
def create (s : State) : State :=
  { s with sockets := s.sockets.create ⟨1, 0, [], 0, none, "", none⟩ }

/-! ## Names -/

/-- The first socket of the list that is accepted; each one is read on the way. -/
def search (s : State) (accept : Socket → Bool) : List Nat → Option (Option Nat)
  | [] => some none
  | bound :: rest => (s.sockets.object bound).bind fun socket =>
      if accept socket then some (some bound) else search s accept rest

/-- `find_dgram`. -/
def findDgram (key : String) : Option (Option Nat) :=
  search s (fun socket => 0 < socket.refs ∧ socket.key = some key) s.listeners

/-- `unix_socket_bind`. -/
def bind (id : Nat) (address : Address) (kmalloc : Bool) : Option (State × Option Errno) := do
  let socket ← s.sockets.object id
  if socket.path ≠ "" then some (s, some .EINVAL)
  else
    let used ← search s (fun socket => socket.key = some address.key) s.listeners
    if used.isSome then some (s, some .EADDRINUSE)
    else if ¬kmalloc then some (s, some .EAGAIN)
    else
      let s := s.set id { socket with path := address.path, key := some address.key }
      some ({ s with listeners := id :: s.listeners }, none)

/-- The loop of `listener_unregister`. -/
def listenerUnregister (s : State) (id : Nat) : List Nat → Option (List Nat)
  | [] => some []
  | bound :: rest => (s.sockets.object bound).bind fun _ =>
      if bound = id then some rest else (listenerUnregister s id rest).map (bound :: ·)

/-! ## Peers -/

/-- `dgram_peer_put`: a reference to the peer is given back. -/
def dgramPeerPut : Option Nat → Option State
  | none => some s
  | some peer => (s.sockets.object peer).bind fun socket =>
      if socket.peerRefs = 0 then some s
      else
        let s := s.set peer { socket with peerRefs := socket.peerRefs - 1 }
        if socket.refs = 0 ∧ socket.peerRefs - 1 = 0 then kfree s peer else some s

/-- `unix_socket_connect` of a datagram socket. -/
def connect (id : Nat) (address : Address) : Option (State × Option Errno) :=
  (findDgram s address.key).bind fun target =>
    match target with
    | none => some (s, some .ECONNREFUSED)
    | some target => do
      let socket ← s.sockets.object id
      let previous := socket.dgramPeer
      let named ← s.sockets.object target
      let s := s.set target { named with peerRefs := named.peerRefs + 1 }
      -- The socket may be the target, so it is read again.
      let socket ← s.sockets.object id
      let s := s.set id { socket with dgramPeer := some target }
      (dgramPeerPut s previous).map fun s => (s, none)

/-! ## Messages -/

/-- `dgram_deliver`. -/
def dgramDeliver (sender target size : Nat) (kmalloc : Bool) : Option (State × Option Errno) := do
  let socket ← s.sockets.object target
  if socket.refs = 0 then some (s, some .ECONNREFUSED)
  else if bytesMax < size then some (s, some .EMSGSIZE)
  else if countMax ≤ socket.rx.length ∨ bytesMax < socket.rxBytes + size then some (s, some .EAGAIN)
  else if ¬kmalloc then some (s, some .ENOBUFS)
  else
    let source ← s.sockets.object sender
    some (s.set target { socket with
      rx := socket.rx ++ [⟨size, source.path⟩], rxBytes := socket.rxBytes + size }, none)

/-- `unix_socket_sendto`. -/
def sendto (id size : Nat) (address : Address) (kmalloc : Bool) : Option (State × Option Errno) :=
  (findDgram s address.key).bind fun target =>
    match target with
    | none => some (s, some .ECONNREFUSED)
    | some target => dgramDeliver s id target size kmalloc

/-- `unix_socket_write` of a datagram socket. -/
def write (id size : Nat) (kmalloc : Bool) : Option (State × Option Errno) :=
  (s.sockets.object id).bind fun socket =>
    match socket.dgramPeer with
    | none => some (s, some .ENOTCONN)
    | some peer => dgramDeliver s id peer size kmalloc

/-! ## References -/

/-- `unix_socket_ref`. -/
def ref (id : Nat) : Option State :=
  (s.sockets.object id).map fun socket => s.set id { socket with refs := socket.refs + 1 }

/-- The end of `unix_socket_unref`, when the last reference is gone. -/
def release (id : Nat) : Option State := do
  let listeners ← listenerUnregister s id s.listeners
  let s := { s with listeners := listeners }
  let socket ← s.sockets.object id
  let peer := socket.dgramPeer
  let s := s.set id { socket with rx := [], rxBytes := 0, dgramPeer := none }
  let s ← dgramPeerPut s peer
  let socket ← s.sockets.object id
  if socket.peerRefs ≠ 0 then some s else kfree s id

/-- `unix_socket_unref`. -/
def unref (id : Nat) : Option State := (s.sockets.object id).bind fun socket =>
    if socket.refs = 0 then some s
    else
      let s := s.set id { socket with refs := socket.refs - 1 }
      if socket.refs - 1 ≠ 0 then some s else release s id

/-- The calls on sockets. -/
inductive Event
  | create
  | bind (id : Nat) (address : Address) (kmalloc : Bool)
  | connect (id : Nat) (address : Address)
  | sendto (id size : Nat) (address : Address) (kmalloc : Bool)
  | write (id size : Nat) (kmalloc : Bool)
  | ref (id : Nat)
  | unref (id : Nat)

/-- Someone holds a reference to the socket. -/
def State.held (id : Nat) : Bool := (s.sockets.object id).any fun socket => 0 < socket.refs

/-- An operation under the lock. A socket is only passed by someone who holds a reference to it. -/
def step : Event → Option State
  | .create => some (create s)
  | .bind id address kmalloc => if s.held id then (bind s id address kmalloc).map (·.1) else some s
  | .connect id address => if s.held id then (connect s id address).map (·.1) else some s
  | .sendto id size address kmalloc =>
    if s.held id then (sendto s id size address kmalloc).map (·.1) else some s
  | .write id size kmalloc => if s.held id then (write s id size kmalloc).map (·.1) else some s
  | .ref id => if s.held id then ref s id else some s
  | .unref id => if s.held id then unref s id else some s

end Tunix.Dgram
