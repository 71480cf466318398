import Easy.Lib.Lts
import Mathlib.Algebra.Order.Ring.Int

/-!
`fd_` and `isConnected_` of a `Socket` and an `SSLSocket` (`easy/net/Socket.cc`).

What the system and OpenSSL return is an argument of the functions that call them. The functions
that make a socket for datagrams set `isConnected_` whether they have got a descriptor or not.
`SSLSocket::connect` fails with a handshake behind a `Socket::connect` that has set
`isConnected_`, and leaves it; and an address of another family is refused by a socket that is
connected, which it stays.
-/

namespace Easy.Net

/-- What is used of an address: its family, and its path if it is a `UnixAddress`. -/
structure Address where
  family : ℤ
  path : Option String
  deriving DecidableEq, Repr

inductive SocketClass
  | socket
  | sslSocket
  deriving DecidableEq, Repr

structure Socket where
  cls : SocketClass
  fd : ℤ
  family : ℤ
  type : ℤ
  protocol : ℤ
  isConnected : Bool
  localAddress : Option Address
  remoteAddress : Option Address
  deriving DecidableEq, Repr

/-- What the calls in a `connect` return, each of them if it is made. The address of an end of
the socket is that for which the call succeeds. -/
structure ConnectCalls where
  socket : ℤ
  connect : ℤ
  connect_with_timeout : ℤ
  getpeername : Option Address
  getsockname : Option Address
  SSL_connect : ℤ
  deriving DecidableEq, Repr

/-- The call that connects is chosen by the timeout. -/
def ConnectCalls.connected (c : ConnectCalls) (timeout_ms : BitVec 64) : ℤ :=
  if timeout_ms = -1 then c.connect else c.connect_with_timeout

/-- Those in a `bind`. A path is probed with the `connect` of another socket. -/
structure BindCalls where
  socket : ℤ
  probe : ConnectCalls
  bind : ℤ
  getsockname : Option Address
  deriving DecidableEq, Repr

namespace Socket

def TCP : ℤ := 1

def UDP : ℤ := 2

def IPv4 : ℤ := 2

def IPv6 : ℤ := 10

def UNIX : ℤ := 1

/-- `Socket(family, type, protocol)`, and that of `SSLSocket` -/
def make (cls : SocketClass) (family type protocol : ℤ) : Socket where
  cls := cls
  fd := -1
  family := family
  type := type
  protocol := protocol
  isConnected := false
  localAddress := none
  remoteAddress := none

def isValid (s : Socket) : Bool := s.fd ≠ -1

/-- `newSock`, where `socket` returns `fd` -/
def newSock (s : Socket) (fd : ℤ) : Socket := { s with fd := fd }

/-- `bind` and `connect` begin with a `newSock` if the socket has no descriptor. -/
def opened (s : Socket) (socket : ℤ) : Socket := if !s.isValid then s.newSock socket else s

def getRemoteAddress (s : Socket) (getpeername : Option Address) : Socket :=
  if s.remoteAddress.isSome then s
  else if getpeername.isSome then { s with remoteAddress := getpeername } else s

def getLocalAddress (s : Socket) (getsockname : Option Address) : Socket :=
  if s.localAddress.isSome then s
  else if getsockname.isSome then { s with localAddress := getsockname } else s

/-- `close`, which is true of a socket that was closed before -/
def close (s : Socket) : Bool × Socket :=
  if !s.isConnected ∧ s.fd = -1 then (true, s)
  else
    let s := { s with isConnected := false }
    (false, if s.fd ≠ -1 then { s with fd := -1 } else s)

/-- `Socket::connect` -/
def connect (s : Socket) (addr : Address) (timeout_ms : BitVec 64) (c : ConnectCalls) :
    Bool × Socket :=
  let s := { s with remoteAddress := some addr }.opened c.socket
  if !s.isValid then (false, s)
  else if addr.family ≠ s.family then (false, s)
  else if c.connected timeout_ms ≠ 0 then (false, s.close.2)
  else
    let s := { s with isConnected := true }
    (true, (s.getRemoteAddress c.getpeername).getLocalAddress c.getsockname)

/-- `SSLSocket::connect` -/
def sslConnect (s : Socket) (addr : Address) (timeout_ms : BitVec 64) (c : ConnectCalls) :
    Bool × Socket :=
  let (v, s) := s.connect addr timeout_ms c
  (if v then c.SSL_connect = 1 else v, s)

/-- The `connect` of the class of the socket. -/
def connectOf (s : Socket) : Address → BitVec 64 → ConnectCalls → Bool × Socket :=
  match s.cls with
  | .socket => s.connect
  | .sslSocket => s.sslConnect

/-- `reconnect` -/
def reconnect (s : Socket) (timeout_ms : BitVec 64) (c : ConnectCalls) : Bool × Socket :=
  match s.remoteAddress with
  | none => (false, s)
  | some addr => { s with localAddress := none }.connectOf addr timeout_ms c

/-- `listen` -/
def listen (s : Socket) (listen : ℤ) : Bool × Socket :=
  if !s.isValid then (false, s) else if listen ≠ 0 then (false, s) else (true, s)

end Socket

/-- The functions that make a socket, the last three of them of `SSLSocket`. -/
inductive Create
  | createTCP (address : Address)
  | createUDP (address : Address)
  | createTCPSocket
  | createUDPSocket
  | createTCPSocket6
  | createUDPSocket6
  | createUnixTCPSocket
  | createUnixUDPSocket
  | sslCreateTCP (address : Address)
  | sslCreateTCPSocket
  | sslCreateTCPSocket6
  deriving DecidableEq, Repr

open Socket in
/-- The socket, where `socket` returns `fd` to those that call it. -/
def Create.make (fd : ℤ) : Create → Socket
  | createTCP address => Socket.make .socket address.family TCP 0
  | createUDP address => { (Socket.make .socket address.family UDP 0).newSock fd with
      isConnected := true }
  | createTCPSocket => Socket.make .socket IPv4 TCP 0
  | createUDPSocket => { (Socket.make .socket IPv4 UDP 0).newSock fd with isConnected := true }
  | createTCPSocket6 => Socket.make .socket IPv6 TCP 0
  | createUDPSocket6 => { (Socket.make .socket IPv6 UDP 0).newSock fd with isConnected := true }
  | createUnixTCPSocket => Socket.make .socket UNIX TCP 0
  | createUnixUDPSocket => Socket.make .socket UNIX UDP 0
  | sslCreateTCP address => Socket.make .sslSocket address.family TCP 0
  | sslCreateTCPSocket => Socket.make .sslSocket IPv4 TCP 0
  | sslCreateTCPSocket6 => Socket.make .sslSocket IPv6 TCP 0

/-- `Socket::bind`. A path that can be connected to is in use. -/
def Socket.bind (s : Socket) (addr : Address) (c : BindCalls) : Bool × Socket :=
  let s := s.opened c.socket
  if !s.isValid then (false, s)
  else if addr.family ≠ s.family then (false, s)
  else if addr.path.isSome ∧ ((Create.createUnixTCPSocket.make (-1)).connect addr (-1) c.probe).1
      then (false, s)
  else if c.bind ≠ 0 then (false, s)
  else (true, s.getLocalAddress c.getsockname)

/-! ### What the functions do with the two fields -/

namespace Socket

variable {s : Socket} {addr : Address} {timeout_ms : BitVec 64} {c : ConnectCalls}

@[simp] theorem isValid_iff : s.isValid = true ↔ s.fd ≠ -1 := by
  simp [isValid]

@[simp] theorem opened_family (socket : ℤ) : (s.opened socket).family = s.family := by
  unfold opened
  split <;> rfl

@[simp] theorem opened_isConnected (socket : ℤ) :
    (s.opened socket).isConnected = s.isConnected := by
  unfold opened
  split <;> rfl

theorem opened_fd_iff (socket : ℤ) : (s.opened socket).fd ≠ -1 ↔ s.fd ≠ -1 ∨ socket ≠ -1 := by
  by_cases hfd : s.fd = -1
  · simp [opened, isValid, newSock, hfd]
  · simp [opened, isValid, hfd]

@[simp] theorem getRemoteAddress_fd (a : Option Address) : (s.getRemoteAddress a).fd = s.fd := by
  unfold getRemoteAddress
  split
  · rfl
  · split <;> rfl

@[simp] theorem getRemoteAddress_isConnected (a : Option Address) :
    (s.getRemoteAddress a).isConnected = s.isConnected := by
  unfold getRemoteAddress
  split
  · rfl
  · split <;> rfl

@[simp] theorem getLocalAddress_fd (a : Option Address) : (s.getLocalAddress a).fd = s.fd := by
  unfold getLocalAddress
  split
  · rfl
  · split <;> rfl

@[simp] theorem getLocalAddress_isConnected (a : Option Address) :
    (s.getLocalAddress a).isConnected = s.isConnected := by
  unfold getLocalAddress
  split
  · rfl
  · split <;> rfl

@[simp] theorem close_isConnected : s.close.2.isConnected = false := by
  unfold close
  split
  case isTrue hclosed => simpa using hclosed.1
  case isFalse hopen =>
    dsimp only
    split <;> rfl

/-- A socket that is connected has a descriptor. -/
def Backed (s : Socket) : Prop := s.isConnected = true → s.fd ≠ -1

theorem Backed.of_not_connected (h : s.isConnected = false) : s.Backed :=
  fun hc => absurd hc (by simp [h])

theorem Backed.opened (hs : s.Backed) (socket : ℤ) : (s.opened socket).Backed :=
  fun hc => (opened_fd_iff socket).mpr (.inl (hs (opened_isConnected socket ▸ hc)))

/-- A `connect` connects if there is a descriptor, or one is got, for the family of the address,
and the call succeeds. -/
def Connects (s : Socket) (addr : Address) (timeout_ms : BitVec 64) (c : ConnectCalls) : Prop :=
  (s.fd ≠ -1 ∨ c.socket ≠ -1) ∧ addr.family = s.family ∧ c.connected timeout_ms = 0

/-- **`Socket::connect`** keeps a descriptor behind a connection. A socket that was connected
remains so, with the result false, if the family of the address is another one. -/
theorem connect_spec (hs : s.Backed) (addr : Address) (timeout_ms : BitVec 64)
    (c : ConnectCalls) :
    (s.connect addr timeout_ms c).2.Backed ∧
      ((s.connect addr timeout_ms c).1 = true ↔ s.Connects addr timeout_ms c) ∧
      ((s.connect addr timeout_ms c).2.isConnected = true ↔
        s.Connects addr timeout_ms c ∨ s.isConnected = true ∧ addr.family ≠ s.family) := by
  have hbacked : ({ s with remoteAddress := some addr } : Socket).Backed := hs
  have hopened := hbacked.opened c.socket
  have hfd := opened_fd_iff (s := { s with remoteAddress := some addr }) c.socket
  have hfamily := opened_family (s := { s with remoteAddress := some addr }) c.socket
  have hcon := opened_isConnected (s := { s with remoteAddress := some addr }) c.socket
  unfold connect Connects
  dsimp only at hfd hfamily hcon ⊢
  -- from here on only the socket behind `newSock` matters
  generalize ({ s with remoteAddress := some addr } : Socket).opened c.socket = s₁ at *
  rw [← hfd, ← hfamily, ← hcon]
  split
  case isTrue hnone =>
    have hfd₁ : s₁.fd = -1 := by simpa [isValid] using hnone
    have hcon₁ : s₁.isConnected = false := by
      by_contra hc
      exact hopened (by simpa using hc) hfd₁
    simp [hopened, hfd₁, hcon₁]
  case isFalse hsome =>
    have hfd₁ : s₁.fd ≠ -1 := by simpa [isValid] using hsome
    split
    case isTrue hother => simp [hopened, hother]
    case isFalse hsame =>
      split
      case isTrue hfail =>
        simp [Backed.of_not_connected close_isConnected, not_not.mp hsame, hfail]
      case isFalse hok => simp [Backed, hfd₁, not_not.mp hsame, not_not.mp hok]

theorem sslConnect_snd :
    (s.sslConnect addr timeout_ms c).2 = (s.connect addr timeout_ms c).2 := rfl

theorem sslConnect_fst : (s.sslConnect addr timeout_ms c).1 = true ↔
    (s.connect addr timeout_ms c).1 = true ∧ c.SSL_connect = 1 := by
  unfold sslConnect
  obtain ⟨v, s₁⟩ := s.connect addr timeout_ms c
  cases v <;> simp

/-- A socket that is connected is given an address of its family, and a handshake that is reached
succeeds. -/
def ConnectSound (s : Socket) (addr : Address) (timeout_ms : BitVec 64) (c : ConnectCalls) : Prop :=
  (s.isConnected = true → addr.family = s.family) ∧
    (s.cls = .sslSocket → s.Connects addr timeout_ms c → c.SSL_connect = 1)

/-- **A `connect`** of either class tells whether the socket is connected under exactly that
condition. -/
theorem connectOf_spec (hs : s.Backed) (addr : Address) (timeout_ms : BitVec 64)
    (c : ConnectCalls) :
    (s.connectOf addr timeout_ms c).2.Backed ∧
      ((s.connectOf addr timeout_ms c).1 = (s.connectOf addr timeout_ms c).2.isConnected ↔
        s.ConnectSound addr timeout_ms c) := by
  obtain ⟨hbacked, hfst, hsnd⟩ := connect_spec hs addr timeout_ms c
  have hsame : s.Connects addr timeout_ms c → addr.family = s.family := fun h => h.2.1
  unfold connectOf ConnectSound
  cases hcls : s.cls
  case socket =>
    refine ⟨hbacked, ?_⟩
    rw [Bool.eq_iff_iff, hfst, hsnd]
    grind
  case sslSocket =>
    refine ⟨hbacked, ?_⟩
    rw [Bool.eq_iff_iff, sslConnect_fst, sslConnect_snd, hfst, hsnd]
    grind

theorem bind_snd (s : Socket) (addr : Address) (b : BindCalls) :
    (s.bind addr b).2 = s.opened b.socket ∨
      (s.bind addr b).2 = (s.opened b.socket).getLocalAddress b.getsockname := by
  unfold bind
  dsimp only
  split
  · exact .inl rfl
  · split
    · exact .inl rfl
    · split
      · exact .inl rfl
      · split
        · exact .inl rfl
        · exact .inr rfl

theorem Backed.bind (hs : s.Backed) (b : BindCalls) : (s.bind addr b).2.Backed := by
  have hopened := hs.opened b.socket
  rcases bind_snd s addr b with h | h
  · exact h ▸ hopened
  · rw [h]
    simpa [Backed] using hopened

theorem listen_snd (s : Socket) (listen : ℤ) : (s.listen listen).2 = s := by
  unfold Socket.listen
  split
  · rfl
  · split <;> rfl

end Socket

/-! ### Runs -/

/-- A call on a socket, with what the calls in it return. -/
inductive SocketOp
  | connect (addr : Address) (timeout_ms : BitVec 64) (c : ConnectCalls)
  | reconnect (timeout_ms : BitVec 64) (c : ConnectCalls)
  | bind (addr : Address) (b : BindCalls)
  | listen (listen : ℤ)
  | close
  deriving DecidableEq, Repr

/-- A socket, and what `connect` has returned if the last call was one, or a `reconnect` that has
called it. -/
structure SocketRun where
  sock : Socket
  connected : Option Bool
  deriving DecidableEq, Repr

def SocketRun.step (r : SocketRun) : SocketOp → SocketRun
  | .connect addr timeout_ms c =>
    let (v, s) := r.sock.connectOf addr timeout_ms c
    ⟨s, some v⟩
  | .reconnect timeout_ms c =>
    let (v, s) := r.sock.reconnect timeout_ms c
    ⟨s, r.sock.remoteAddress.map fun _ => v⟩
  | .bind addr b => ⟨(r.sock.bind addr b).2, none⟩
  | .listen listen => ⟨(r.sock.listen listen).2, none⟩
  | .close => ⟨r.sock.close.2, none⟩

/-- The calls on a socket behind the function that has made it. -/
def socketLts : Lib.Lts SocketRun SocketOp where
  init r := ∃ (create : Create) (fd : ℤ), r = ⟨create.make fd, none⟩
  step r op := some (r.step op)

namespace SocketRun

variable {r : SocketRun}

/-- A socket that says it is connected has a descriptor, and it says so behind a `connect` if and
only if this has returned true. -/
structure Honest (r : SocketRun) : Prop where
  backed : r.sock.Backed
  connected : ∀ v ∈ r.connected, v = r.sock.isConnected

/-- The condition on a call. -/
def Sound (r : SocketRun) : SocketOp → Prop
  | .connect addr timeout_ms c => r.sock.ConnectSound addr timeout_ms c
  | .reconnect timeout_ms c =>
    ∀ addr ∈ r.sock.remoteAddress, r.sock.ConnectSound addr timeout_ms c
  | .bind _ _ => True
  | .listen _ => True
  | .close => True

theorem honest_connectOf {s : Socket} (hs : s.Backed) (addr : Address) (timeout_ms : BitVec 64)
    (c : ConnectCalls) :
    Honest ⟨(s.connectOf addr timeout_ms c).2, some (s.connectOf addr timeout_ms c).1⟩ ↔
      s.ConnectSound addr timeout_ms c := by
  obtain ⟨hbacked, hiff⟩ := s.connectOf_spec hs addr timeout_ms c
  constructor
  · intro h
    exact hiff.mp (h.connected _ rfl)
  · intro h
    exact ⟨hbacked, fun v hv => Option.some.inj hv ▸ hiff.mpr h⟩

/-- **One call** leaves the socket honest if and only if it meets the condition. -/
theorem honest_step_iff (hr : r.Honest) (op : SocketOp) : (r.step op).Honest ↔ r.Sound op := by
  cases op with
  | connect addr timeout_ms c => exact honest_connectOf hr.backed addr timeout_ms c
  | reconnect timeout_ms c =>
      cases haddr : r.sock.remoteAddress with
      | none =>
          have hstep : r.step (.reconnect timeout_ms c) = ⟨r.sock, none⟩ := by
            simp [step, Socket.reconnect, haddr]
          rw [hstep]
          exact iff_of_true ⟨hr.backed, nofun⟩ (by simp [Sound, haddr])
      | some addr =>
          have hbacked : ({ r.sock with localAddress := none } : Socket).Backed := hr.backed
          have hiff := honest_connectOf hbacked addr timeout_ms c
          have hstep : r.step (.reconnect timeout_ms c) =
              ⟨(({ r.sock with localAddress := none } : Socket).connectOf addr timeout_ms c).2,
                some (({ r.sock with localAddress := none } : Socket).connectOf addr timeout_ms
                  c).1⟩ := by
            simp [step, Socket.reconnect, haddr]
          rw [hstep, hiff]
          simp only [Sound, haddr, Option.mem_some_iff, forall_eq']
          exact Iff.rfl
  | bind addr b => exact iff_of_true ⟨hr.backed.bind b, nofun⟩ trivial
  | listen listen =>
      refine iff_of_true ⟨?_, nofun⟩ trivial
      change (r.sock.listen listen).2.Backed
      exact (r.sock.listen_snd listen).symm ▸ hr.backed
  | close =>
      exact iff_of_true ⟨.of_not_connected Socket.close_isConnected, nofun⟩ trivial

end SocketRun

/-- The functions that set `isConnected_` for datagrams. -/
def Create.connects : Create → Prop
  | createUDP _ | createUDPSocket | createUDPSocket6 => True
  | _ => False

open SocketRun

/-- A socket that has just been made. -/
theorem Create.honest_iff (create : Create) (fd : ℤ) :
    Honest ⟨create.make fd, none⟩ ↔ (create.connects → fd ≠ -1) := by
  have hiff : Honest ⟨create.make fd, none⟩ ↔ (create.make fd).Backed :=
    ⟨Honest.backed, fun h => ⟨h, nofun⟩⟩
  rw [hiff]
  cases create <;> simp [Socket.Backed, Create.make, Socket.make, Socket.newSock, connects]

/-- **Connected sockets.** In every run, a socket that says it is connected has a descriptor and
each `connect` tells whether it is connected, if and only if a datagram socket was made with a
descriptor and every call meets the condition. -/
theorem Create.along_honest_iff (create : Create) (fd : ℤ) (ops : List SocketOp) :
    socketLts.Along Honest ⟨create.make fd, none⟩ ops ↔
      (create.connects → fd ≠ -1) ∧ socketLts.Meets Sound ⟨create.make fd, none⟩ ops := by
  rw [← create.honest_iff fd]
  have hmeets : ∀ r : SocketRun, r.Honest →
      (socketLts.Along Honest r ops ↔ socketLts.Meets Sound r ops) := by
    intro r hr
    refine Lib.Lts.along_iff_meets (I := fun _ => True) (fun _ _ _ _ _ _ => trivial) ?_ trivial hr
      ops
    intro r op r' hstep _ hr
    obtain rfl := Option.some.inj hstep
    exact honest_step_iff hr op
  constructor
  · intro h
    exact ⟨h.head, (hmeets _ h.head).mp h⟩
  · rintro ⟨hr, h⟩
    exact (hmeets _ hr).mpr h

/-- The handshake behind a connection that is made fails: `connect` returns false, and the socket
says it is connected. -/
theorem Create.along_honest_false : ¬∀ (create : Create) (fd : ℤ) (ops : List SocketOp),
    socketLts.Along Honest ⟨create.make fd, none⟩ ops := by
  intro h
  have hrun := h .sslCreateTCPSocket (-1)
    [.connect ⟨2, none⟩ (-1) ⟨3, 0, 0, none, none, -1⟩]
  have hlast := (hrun.2 _ rfl).connected
  exact absurd (hlast false rfl) (by decide)

end Easy.Net
