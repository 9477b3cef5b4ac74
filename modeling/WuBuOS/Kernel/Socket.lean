import WuBuOS.Lib.Bitmap
import WuBuOS.Lib.Fifo

/-!
# The socket layer

`kernel/wubu_socket.c`: a pool of sockets, a table of file descriptors, a bitmap of ports, and the calls
that work on them.  A pointer to a socket is its slot in the pool.  `size_t` is `BitVec 64`; what the
calls return is an integer, negative for an error.

A buffer of `wubu_sendmsg` is the list of its bytes, one of `wubu_recvmsg` is its length, and what is
filled in comes back with the result.
-/

namespace WuBuOS.Socket

/-! ## Constants -/

/-- `WUBU_FD_MAX`. -/
abbrev fdMax : Nat := 256

/-- `WUBU_SOCKET_MAX`. -/
abbrev socketMax : Nat := 256

/-- `WUBU_PORT_MAX`. -/
abbrev portMax : Nat := 65536

/-- `WUBU_BACKLOG_MAX`. -/
abbrev backlogMax : Nat := 64

/-- `WUBU_RECV_RING_MAX`. -/
abbrev recvRingMax : Nat := 512

abbrev afInet : Int := 1
abbrev afInet6 : Int := 2
abbrev afUnix : Int := 3

abbrev sockStream : Int := 1
abbrev sockDgram : Int := 2
abbrev sockRaw : Int := 3

abbrev solSocket : Int := 1
abbrev soReuseaddr : Int := 1
abbrev soReuseport : Int := 2
abbrev soRcvbuf : Int := 3
abbrev soSndbuf : Int := 4

abbrev shutRd : Int := 1
abbrev shutWr : Int := 2
abbrev shutRdwr : Int := 3

abbrev einval : Int := -1
abbrev ebadf : Int := -2
abbrev eaddrinuse : Int := -3
abbrev eaddrnotavail : Int := -4
abbrev eisconn : Int := -6
abbrev enotconn : Int := -7
abbrev enomem : Int := -10
abbrev eagain : Int := -11
abbrev econnrefused : Int := -12
abbrev eopnotsupp : Int := -13

/-! ## The data -/

/-- The connection states, `SK_FREE` to `SK_ESTABLISHED`. -/
inductive SkState where
  | free | idle | bound | listen | synSent | established
  deriving DecidableEq

/-- The number of a state, by which states are compared. -/
def SkState.toNat : SkState → Nat
  | .free => 0
  | .idle => 1
  | .bound => 2
  | .listen => 3
  | .synSent => 4
  | .established => 5

structure Sockaddr where
  saFamily : UInt16
  saPort : UInt16
  saAddr : Vector UInt8 16
  deriving DecidableEq

/-- `sizeof(struct wubu_sockaddr)`. -/
abbrev sockaddrSize : Nat := 20

abbrev Fd := Fin fdMax
abbrev Slot := Fin socketMax

/-- `struct wubu_socket`, but for `accept_tail`, which nothing reads. -/
structure Sock where
  /-- `none` for `-1`. -/
  fd : Option Fd
  domain : Int
  type : Int
  proto : Int
  state : SkState
  reuseaddr : Bool
  reuseport : Bool
  backlog : Int
  /-- `local`. -/
  localAddr : Sockaddr
  peer : Option Slot
  acceptQ : Nat → Option Slot
  acceptHead : Nat
  acceptLen : Nat
  ring : Nat → UInt8
  rp : BitVec 64
  wp : BitVec 64

/-- `g_pool`, `g_fds` and `g_port_busy`. -/
structure Net where
  pool : Slot → Sock
  fds : Fd → Option Slot
  portBusy : Nat → BitVec 8

/-- An address of zeros. -/
def zeroAddr : Sockaddr := ⟨0, 0, .replicate 16 0⟩

/-- A socket of zeros. -/
def zeroSock : Sock where
  fd := some 0
  domain := 0
  type := 0
  proto := 0
  state := .free
  reuseaddr := false
  reuseport := false
  backlog := 0
  localAddr := zeroAddr
  peer := none
  acceptQ := fun _ => none
  acceptHead := 0
  acceptLen := 0
  ring := fun _ => 0
  rp := 0
  wp := 0

/-- The tables before the first call. -/
def Net.init : Net := ⟨fun _ => zeroSock, fun _ => none, fun _ => 0⟩

/-- A change to one socket. -/
def Net.upd (st : Net) (i : Slot) (f : Sock → Sock) : Net :=
  { st with pool := fun j => if j = i then f (st.pool i) else st.pool j }

theorem upd_pool (st : Net) (i k : Slot) (f : Sock → Sock) :
    (st.upd i f).pool k = if k = i then f (st.pool i) else st.pool k := rfl

theorem upd_pool_self (st : Net) (i : Slot) (f : Sock → Sock) : (st.upd i f).pool i = f (st.pool i) := if_pos rfl

theorem upd_pool_of_ne {i k : Slot} (h : k ≠ i) (st : Net) (f : Sock → Sock) :
    (st.upd i f).pool k = st.pool k := if_neg h

/-! ## Ports, slots and descriptors -/

def portTest (st : Net) (p : Nat) : Bool := Bitmap.test st.portBusy p

def portSet (st : Net) (p : Nat) : Net := { st with portBusy := Bitmap.set st.portBusy p }

def portClr (st : Net) (p : Nat) : Net := { st with portBusy := Bitmap.clear st.portBusy p }

/-- The port is taken before it is given out. -/
def portAlloc (st : Net) : Option (Net × Nat) :=
  ((List.range' 1024 (portMax - 1024)).find? fun p => !portTest st p).map fun p => (portSet st p, p)

def sockAlloc (st : Net) : Option (Net × Slot) :=
  ((List.finRange socketMax).find? fun i => (st.pool i).state = .free).map fun i =>
    (st.upd i fun _ => { zeroSock with fd := none, state := .idle }, i)

def fdAlloc (st : Net) (i : Slot) : Option (Net × Fd) :=
  ((List.finRange fdMax).find? fun fd => (st.fds fd).isNone).map fun fd =>
    ({ st.upd i (fun s => { s with fd := some fd }) with
      fds := fun f => if f = fd then some i else st.fds f }, fd)

def sockFromFd (st : Net) (fd : Int) : Option Slot :=
  if h : 0 ≤ fd ∧ fd < fdMax then st.fds ⟨fd.toNat, by omega⟩ else none

/-- The bit that `sock_free` clears: the socket has an address, with a port. -/
def holdsPort (s : Sock) : Bool :=
  s.localAddr.saFamily ≠ 0 ∧ SkState.toNat .bound ≤ s.state.toNat ∧ s.localAddr.saPort ≠ 0

def sockFree (st : Net) (i : Slot) : Net :=
  match (st.pool i).fd with
  | none => st
  | some fd =>
    let st := { st with fds := fun f => if f = fd then none else st.fds f }
    let st := if holdsPort (st.pool i) then portClr st (st.pool i).localAddr.saPort.toNat else st
    st.upd i fun s => { s with fd := none, state := .free, peer := none, acceptLen := 0 }

/-! ## The connection calls -/

def wubuSocket (st : Net) (domain type protocol : Int) : Net × Int :=
  if domain ≠ afInet ∧ domain ≠ afInet6 ∧ domain ≠ afUnix then (st, einval)
  else if type ≠ sockStream ∧ type ≠ sockDgram ∧ type ≠ sockRaw then (st, einval)
  else if type = sockRaw then (st, eopnotsupp)
  else
    match sockAlloc st with
    | none => (st, enomem)
    | some (st, i) =>
      let st := st.upd i fun s => { s with domain := domain, type := type, proto := protocol }
      match fdAlloc st i with
      | none => (sockFree st i, enomem)
      | some (st, fd) => (st, fd)

/-- The address is taken, with the port that has been reserved. -/
def commit (st : Net) (i : Slot) (addr : Sockaddr) (port : Nat) : Net :=
  st.upd i fun s => { s with localAddr := { addr with saPort := .ofNat port }, state := .bound }

def wubuBind (st : Net) (fd : Int) (addr : Option Sockaddr) (addrlen : Nat) : Net × Int :=
  match sockFromFd st fd with
  | none => (st, ebadf)
  | some i =>
    if (st.pool i).state ≠ .idle then (st, eaddrinuse)
    else
      match addr with
      | none => (st, einval)
      | some addr =>
        if addrlen < sockaddrSize then (st, einval)
        else if (addr.saFamily.toNat : Int) ≠ (st.pool i).domain then (st, einval)
        else if addr.saPort = 0 then
          match portAlloc st with
          | none => (st, eaddrnotavail)
          | some (st, port) => (commit st i addr port, 0)
        else if portMax ≤ addr.saPort.toNat then (st, einval)
        else if portTest st addr.saPort.toNat ∧ ¬((st.pool i).reuseaddr ∨ (st.pool i).reuseport) then
          (st, eaddrinuse)
        else (commit (portSet st addr.saPort.toNat) i addr addr.saPort.toNat, 0)

def wubuListen (st : Net) (fd backlog : Int) : Net × Int :=
  match sockFromFd st fd with
  | none => (st, ebadf)
  | some i =>
    if (st.pool i).state ≠ .bound then (st, einval)
    else
      let cap : Int := if backlog < 0 then 0 else if backlogMax < backlog then backlogMax else backlog
      (st.upd i fun s => { s with backlog := cap, state := .listen, acceptHead := 0, acceptLen := 0 }, 0)

def acceptEnqueue (l : Sock) (c : Slot) : Sock × Int :=
  if backlogMax ≤ l.acceptLen then (l, -1)
  else
    let pos := (l.acceptHead + l.acceptLen) % backlogMax
    ({ l with acceptQ := fun a => if a = pos then some c else l.acceptQ a, acceptLen := l.acceptLen + 1 }, 0)

def acceptDequeue (l : Sock) : Sock × Option Slot :=
  if l.acceptLen = 0 then (l, none)
  else
    ({ l with
      acceptQ := fun a => if a = l.acceptHead then none else l.acceptQ a
      acceptHead := (l.acceptHead + 1) % backlogMax
      acceptLen := l.acceptLen - 1 }, l.acceptQ l.acceptHead)

/-- The socket that a connection to the address goes to. -/
def route (st : Net) (type : Int) (addr : Sockaddr) : Option Slot :=
  (List.finRange socketMax).find? fun c => (st.pool c).localAddr = addr ∧
    (type = sockStream ∧ (st.pool c).state = .listen ∨
      type = sockDgram ∧ SkState.toNat .bound ≤ (st.pool c).state.toNat ∧ (st.pool c).type = sockDgram)

def wubuConnect (st : Net) (fd : Int) (addr : Option Sockaddr) (addrlen : Nat) : Net × Int :=
  match sockFromFd st fd with
  | none => (st, ebadf)
  | some i =>
    match addr with
    | none => (st, einval)
    | some addr =>
      if addrlen < sockaddrSize then (st, einval)
      else if (st.pool i).state = .established then (st, eisconn)
      else
        match route st (st.pool i).type addr with
        | none => (st, econnrefused)
        | some dst =>
          let st := st.upd i fun s => { s with state := .synSent }
          if (st.pool i).type = sockStream then
            match sockAlloc st with
            | none => (st, enomem)
            | some (st, p) =>
              let s := st.pool i
              let st := st.upd p fun q => { q with
                domain := s.domain, type := s.type, proto := s.proto, localAddr := (st.pool dst).localAddr
                peer := some i, state := .established }
              -- Whether the queue had room for it nobody asks.
              let st := st.upd dst fun l => (acceptEnqueue l p).1
              (st.upd i fun s => { s with peer := some p, state := .established }, 0)
          else
            let st := st.upd dst fun c => { c with peer := some i }
            (st.upd i fun s => { s with peer := some dst, state := .established }, 0)

/-- What is stored through `addr` comes third. -/
def wubuAccept (st : Net) (fd : Int) : Net × Int × Option Sockaddr :=
  match sockFromFd st fd with
  | none => (st, ebadf, none)
  | some i =>
    if (st.pool i).state ≠ .listen then (st, einval, none)
    else
      let (l, c) := acceptDequeue (st.pool i)
      let st := st.upd i fun _ => l
      match c with
      | none => (st, eagain, none)
      | some c =>
        match fdAlloc st c with
        | none => (st, enomem, none)
        | some (st, newfd) => (st, newfd, some (st.pool i).localAddr)

/-- `optval` is the integer that it points to. -/
def wubuSetsockopt (st : Net) (fd level optname : Int) (optval : Option Int) (optlen : Nat) : Net × Int :=
  match sockFromFd st fd with
  | none => (st, ebadf)
  | some i =>
    match optval with
    | none => (st, einval)
    | some v =>
      if optlen = 0 then (st, einval)
      else if level ≠ solSocket then (st, einval)
      else if optname = soReuseaddr then (st.upd i fun s => { s with reuseaddr := v ≠ 0 }, 0)
      else if optname = soReuseport then (st.upd i fun s => { s with reuseport := v ≠ 0 }, 0)
      else if optname = soRcvbuf ∨ optname = soSndbuf then (st, 0)
      else (st, einval)

/-- `s->peer->peer = 0`. -/
def detachPeer (st : Net) (i : Slot) : Net :=
  match (st.pool i).peer with
  | none => st
  | some j => st.upd j fun q => { q with peer := none }

def wubuShutdown (st : Net) (fd how : Int) : Net × Int :=
  match sockFromFd st fd with
  | none => (st, ebadf)
  | some i =>
    if (st.pool i).state.toNat < SkState.toNat .bound then (st, enotconn)
    else
      let st := if how = shutRd ∨ how = shutRdwr then st.upd i fun s => { s with rp := 0, wp := 0 } else st
      let st := if how = shutWr ∨ how = shutRdwr then
          (detachPeer st i).upd i fun s => { s with
            peer := none, state := if s.type = sockStream then .free else s.state }
        else st
      (st, 0)

def wubuClose (st : Net) (fd : Int) : Net × Int :=
  match sockFromFd st fd with
  | none => (st, ebadf)
  | some i => (sockFree (detachPeer st i) i, 0)

/-! ## The receive ring -/

/-- The loop of `ring_put`: the bytes are written from index `wp` on. -/
def ringWrite : (Nat → UInt8) → BitVec 64 → List UInt8 → Nat → UInt8
  | ring, _, [] => ring
  | ring, wp, b :: data => ringWrite (fun a => if a = wp.toNat % recvRingMax then b else ring a) (wp + 1) data

/-- The loop of `ring_get`: `n` bytes from index `rp` on. -/
def ringRead (ring : Nat → UInt8) (rp : BitVec 64) (n : Nat) : List UInt8 :=
  (List.range n).map fun i => ring ((rp + .ofNat 64 i).toNat % recvRingMax)

/-- The number of bytes in the ring, as `ring_put` and `ring_get` compute it. -/
def ringUsed (s : Sock) : Nat := (s.wp - s.rp).toNat % recvRingMax

/-- The bytes that fit are written, and their number is returned. -/
def ringPut (s : Sock) (data : List UInt8) : Sock × Nat :=
  let free := recvRingMax - ringUsed s
  if free = 0 then (s, 0)
  else
    let n := min data.length free
    ({ s with ring := ringWrite s.ring s.wp (data.take n), wp := s.wp + .ofNat 64 n }, n)

def ringGet (s : Sock) (cap : Nat) : Sock × List UInt8 :=
  let avail := ringUsed s
  if avail = 0 then (s, [])
  else
    let n := min cap avail
    ({ s with rp := s.rp + .ofNat 64 n }, ringRead s.ring s.rp n)

/-! ## Sending and receiving -/

/-- The loop over the buffers of `wubu_sendmsg`, for the peer's ring. -/
def sendIov : Sock → List (List UInt8) → Sock × Nat
  | s, [] => (s, 0)
  | s, io :: iov =>
    let (s, written) := ringPut s io
    if written < io.length then (s, written)
    else
      let (s, total) := sendIov s iov
      (s, written + total)

/-- `msg` is `none` if it, or its list of buffers, is `NULL`. -/
def wubuSendmsg (st : Net) (fd : Int) (msg : Option (List (List UInt8))) : Net × Int :=
  match sockFromFd st fd with
  | none => (st, ebadf)
  | some i =>
    match (st.pool i).peer with
    | none => (st, enotconn)
    | some j =>
      if (st.pool i).state ≠ .established then (st, enotconn)
      else
        match msg with
        | none => (st, einval)
        | some iov =>
          let (s, total) := sendIov (st.pool j) iov
          (st.upd j fun _ => s, total)

/-- The loop over the buffers of `wubu_recvmsg`: what is filled into those that it gets to. -/
def recvIov : Sock → List Nat → Sock × List (List UInt8)
  | s, [] => (s, [])
  | s, cap :: caps =>
    let (s, got) := ringGet s cap
    if got.length < cap then (s, [got])
    else
      let (s, bufs) := recvIov s caps
      (s, got :: bufs)

def wubuRecvmsg (st : Net) (fd : Int) (msg : Option (List Nat)) : Net × Int × List (List UInt8) :=
  match sockFromFd st fd with
  | none => (st, ebadf, [])
  | some i =>
    match msg with
    | none => (st, einval, [])
    | some caps =>
      let (s, bufs) := recvIov (st.pool i) caps
      (st.upd i fun _ => s, bufs.flatten.length, bufs)

end WuBuOS.Socket
