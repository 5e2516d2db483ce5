import Mathlib.Logic.Function.Basic
import QPHi.Basic
import QPHi.Lib.Command

/-! The objects around descriptors: `qp_fd_t` of `core/qp_io_core.c`, `qp_socket_t` of `qp_socket.c` and `qp_file_t` of
    `qp_file.c`, from their creation to their end. An object is in memory of the caller or in a block of its own; it may have
    a descriptor, and blocks for its buffers. Here it matters what is opened and closed, allocated and freed; what goes
    through the descriptors is the matter of `QPHi.Fd` and `QPHi.Direct`. -/

namespace QPHi
open Command

/-- What a process can have: an open descriptor, or a block of memory by its address. -/
inductive Resource where
  | descriptor (fd : Int)
  | block (p : Ptr)
deriving DecidableEq, Repr

/-- `enum qp_fd_type_e`. -/
inductive FdType where
  | unknow
  | file
  | socket
  | event
deriving DecidableEq, Repr

/-- `struct qp_fd_s`. -/
structure FdObject where
  fd : Int
  type : FdType
  aio : Ptr
  isInited : Bool
  isAlloced : Bool
  isNoblock : Bool
deriving DecidableEq, Repr

/-- `struct qp_socket_s`, without the `qp_fd_s` at its start and the address. -/
structure SocketObject where
  domain : Int
  type : Int
  backlog : Int
  isListen : Bool
  isAlloced : Bool
deriving DecidableEq, Repr

/-- `struct qp_file_s`, without the `qp_fd_s` at its start and what reading and writing use. -/
structure FileObject where
  wrbuf : Ptr
  rdbuf : Ptr
  wrbufSize : Nat
  rdbufSize : Nat
  openFlag : BitVec 32
  isDirectIO : Bool
  isAlloced : Bool
deriving DecidableEq, Repr

/-- The memory of the objects, one map for each kind of structure by its address, and the process: the memory that is the
    caller's, what is open or allocated, which open files have `O_NONBLOCK`, and what the next calls of the system answer. A
    `qp_fd_s` inside a socket or a file is at the address of that. -/
structure Objects where
  fd : Ptr → FdObject
  socket : Ptr → SocketObject
  file : Ptr → FileObject
  own : List Ptr
  live : List Resource
  nonblock : Int → Bool
  answers : Nat → Int
  clock : Nat

def QP_SOCKET_DOMAIN_UNSUPPORT : Int := QP_ERROR
def QP_SOCKET_DOMAIN_UNIX : Int := 1
def QP_SOCKET_DOMAIN_INET : Int := 2
def QP_SOCKET_DOMAIN_INET6 : Int := 10
def QP_SOCKET_DOMAIN_PACKET : Int := 17

def QP_SOCKET_TYPE_UNSUPPORT : Int := QP_ERROR
def QP_SOCKET_TYPE_STREAM : Int := 1
def QP_SOCKET_TYPE_DGRAM : Int := 2
def QP_SOCKET_TYPE_RAW : Int := 3

def QP_SOCKET_DEFAULT_LISTENBACKLOG : Int := 128
def QP_SOCKET_SHUT_CLOSE : Int := QP_ERROR

/-- The size of `sun_path`. -/
def sizeofSunPath : Nat := 108

def QP_FILE_DIRECTIO : BitVec 32 := 1
def QP_FILE_AIO : BitVec 32 := 2
def QP_FILE_PATH_LEN_MAX : Nat := 1024

def O_RDONLY : BitVec 32 := 0
def O_DIRECT : BitVec 32 := 0x4000

/-- The bit of `O_NONBLOCK`. -/
def nonblockBit : Nat := 11

namespace Objects

/-! ### Memory -/

/-- The memory at `p` is the caller's, or allocated. -/
def Valid (o : Objects) (p : Ptr) : Prop := p ∈ o.own ∨ .block p ∈ o.live

instance (o : Objects) (p : Ptr) : Decidable (o.Valid p) := inferInstanceAs (Decidable (_ ∨ _))

/-- Memory that is not valid must not be touched. -/
def access {α : Type} (p : Ptr) (f : Objects → α × Objects) : Cmd Objects α :=
  fun o => if o.Valid p then .ok (f o) else .error .stuck

def fdAt (p : Ptr) : Cmd Objects FdObject := access p fun o => (o.fd p, o)
def socketAt (p : Ptr) : Cmd Objects SocketObject := access p fun o => (o.socket p, o)
def fileAt (p : Ptr) : Cmd Objects FileObject := access p fun o => (o.file p, o)

def setFd (p : Ptr) (f : FdObject → FdObject) : Cmd Objects Unit :=
  access p fun o => ((), { o with fd := Function.update o.fd p (f (o.fd p)) })

def setSocket (p : Ptr) (f : SocketObject → SocketObject) : Cmd Objects Unit :=
  access p fun o => ((), { o with socket := Function.update o.socket p (f (o.socket p)) })

def setFile (p : Ptr) (f : FileObject → FileObject) : Cmd Objects Unit :=
  access p fun o => ((), { o with file := Function.update o.file p (f (o.file p)) })

/-! ### The system -/

/-- The answer of a call of the system. -/
def answer : Cmd Objects Int := fun o => .ok (o.answers o.clock, { o with clock := o.clock + 1 })

/-- `qp_alloc` and `qp_alloc_align`: a block that is not in use, or `NULL`. -/
def alloc : Cmd Objects Ptr := do
  let p := (← answer).toNat
  let o ← get
  if p = NULL ∨ o.Valid p then return NULL
  else
    set { o with live := .block p :: o.live }
    return p

/-- Memory for a structure, which a function takes where the caller has none. -/
def memoryFor (p : Ptr) : Cmd Objects Ptr := if p = NULL then alloc else return p

/-- `qp_free`, undefined for what is not allocated. -/
def free (p : Ptr) : Cmd Objects Unit := do
  let o ← get
  if p = NULL then return ()
  else if .block p ∈ o.live then set { o with live := o.live.erase (.block p) }
  else stuck

/-- `open`, `socket` or `accept`: a descriptor that is not open yet, or -1. -/
def sysOpen (nonblock : Bool) : Cmd Objects Int := do
  let fd ← answer
  let o ← get
  if fd < 0 ∨ .descriptor fd ∈ o.live then return -1
  else
    set { o with live := .descriptor fd :: o.live, nonblock := Function.update o.nonblock fd nonblock }
    return fd

/-- `close`, which closes also where it reports an error. To close what is not open is a fault: it could be another one's. -/
def sysClose (fd : Int) : Cmd Objects Int := do
  let ret ← answer
  let o ← get
  if .descriptor fd ∈ o.live then
    set { o with live := o.live.erase (.descriptor fd) }
    return if ret = 0 then 0 else -1
  else stuck

/-- `fcntl` with `F_SETFL`. It gives `O_NONBLOCK` a value, or fails. -/
def sysSetfl (fd : Int) (nonblock : Bool) : Cmd Objects Int := do
  let ret ← answer
  let o ← get
  if 0 ≤ fd ∧ .descriptor fd ∈ o.live ∧ ret = 0 then
    set { o with nonblock := Function.update o.nonblock fd nonblock }
    return 0
  else return -1

/-! ### Descriptors -/

def fdIs (q : FdObject → Bool) (fd : Ptr) : Cmd Objects Bool := if fd = NULL then return false else return q (← fdAt fd)

/-- `qp_fd_is_inited`, `qp_fd_is_alloced`, `qp_fd_is_noblock` and `qp_fd_is_valid`. -/
def fdIsInited : Ptr → Cmd Objects Bool := fdIs (·.isInited)
def fdIsAlloced : Ptr → Cmd Objects Bool := fdIs (·.isAlloced)
def fdIsNoblock : Ptr → Cmd Objects Bool := fdIs (·.isNoblock)
def fdIsValid : Ptr → Cmd Objects Bool := fdIs (·.fd ≠ QP_FD_INVALID)

/-- What `memset` leaves of a `qp_fd_s`. -/
def FdObject.zero : FdObject := ⟨0, .unknow, NULL, false, false, false⟩

/-- `qp_fd_create`. -/
def fdCreate (fd : Ptr) : Cmd Objects Ptr := do
  let p ← memoryFor fd
  if p = NULL then return NULL
  else
    setFd p fun _ => { FdObject.zero with isAlloced := fd = NULL }
    setFd p fun x => { x with fd := QP_FD_INVALID, type := .unknow, isInited := true }
    return p

/-- `qp_fd_init`. -/
def fdInit (fd : Ptr) (type : FdType) (aio : Bool) : Cmd Objects Ptr := do
  let fd ← fdCreate fd
  if fd = NULL then return NULL
  else
    when aio do
      let block ← alloc
      setFd fd fun x => { x with aio := block }
    setFd fd fun x => { x with type := type }
    return fd

/-- `qp_fd_close`. -/
def fdClose (fd : Ptr) : Cmd Objects Int := do
  if ← fdIsValid fd then
    let ret := (← fdAt fd).fd
    setFd fd fun x => { x with fd := QP_FD_INVALID }
    sysClose ret
  else return QP_ERROR

/-- `qp_fd_destroy`. -/
def fdDestroy (fd : Ptr) : Cmd Objects Int := do
  if ← fdIsInited fd then
    let _ ← fdClose fd
    setFd fd fun x => { x with type := .unknow }
    when ((← fdAt fd).aio ≠ NULL) do
      free (← fdAt fd).aio
      setFd fd fun x => { x with aio := NULL }
    setFd fd fun x => { x with isNoblock := false }
    setFd fd fun x => { x with isInited := false }
    if ← fdIsAlloced fd then free fd
    return QP_SUCCESS
  else return QP_ERROR

/-- `qp_fd_setNoBlock` and `qp_fd_setBlock`, which make the flag and `O_NONBLOCK` be `nonblock`. -/
def fdSetfl (nonblock : Bool) (fd : Ptr) : Cmd Objects Int := do
  if fd = NULL then return QP_ERROR
  else if (← fdAt fd).aio ≠ NULL then return QP_ERROR
  else if (← fdIsNoblock fd) = nonblock then return QP_SUCCESS
  else if (← sysSetfl (← fdAt fd).fd nonblock) = QP_SUCCESS then
    setFd fd fun x => { x with isNoblock := nonblock }
    return QP_SUCCESS
  else return QP_ERROR

def fdSetNoBlock : Ptr → Cmd Objects Int := fdSetfl true
def fdSetBlock : Ptr → Cmd Objects Int := fdSetfl false

/-- A call of the system that opens, whose answer becomes the descriptor. -/
def openInto (fd : Ptr) (nonblock : Bool) : Cmd Objects Unit := do
  let answer ← sysOpen nonblock
  setFd fd fun x => { x with fd := answer }

/-! ### Sockets -/

def SocketObject.zero : SocketObject := ⟨0, 0, 0, false, false⟩

/-- `qp_socket_is_alloced` and `qp_socket_is_listen`. -/
def socketIs (q : SocketObject → Bool) (skt : Ptr) : Cmd Objects Bool :=
  if skt = NULL then return false else return q (← socketAt skt)

def socketIsAlloced : Ptr → Cmd Objects Bool := socketIs (·.isAlloced)
def socketIsListen : Ptr → Cmd Objects Bool := socketIs (·.isListen)

/-- `qp_socket_create`. -/
def socketCreate (skt : Ptr) : Cmd Objects Ptr := do
  let p ← memoryFor skt
  if p = NULL then return NULL
  else
    setFd p fun _ => FdObject.zero
    setSocket p fun _ => { SocketObject.zero with isAlloced := skt = NULL }
    -- init fd
    if (← fdInit p .socket false) = NULL then
      if ← socketIsAlloced p then free p
      return NULL
    else
      setSocket p fun x => { x with domain := QP_SOCKET_DOMAIN_UNSUPPORT, type := QP_SOCKET_TYPE_UNSUPPORT }
      return p

/-- `qp_socket_close`. -/
def socketClose (skt : Ptr) (shut : Int) : Cmd Objects Int := do
  if ← fdIsValid skt then
    -- close socket at once
    when (shut ≠ QP_SOCKET_SHUT_CLOSE) do
      let _ ← answer
    fdClose skt
  else return QP_ERROR

/-- `qp_socket_destroy`. -/
def socketDestroy (skt : Ptr) : Cmd Objects Int := do
  if ← fdIsInited skt then
    let _ ← socketClose skt QP_SOCKET_SHUT_CLOSE
    let _ ← fdDestroy skt
    setSocket skt fun x => { x with domain := QP_SOCKET_DOMAIN_UNSUPPORT, type := QP_SOCKET_TYPE_UNSUPPORT }
    if ← socketIsAlloced skt then free skt
    return QP_SUCCESS
  else return QP_ERROR

/-- `qp_socket_assign_inet`: `inet_pton` reads the name, except for a server at `0.0.0.0`. -/
def socketAssignInet (skt : Ptr) (name : List UInt8) : Cmd Objects Ptr := do
  if (← socketIsListen skt) ∧ name = [48, 46, 48, 46, 48, 46, 48] then return skt
  else if (← answer) ≠ 1 then return NULL
  else return skt

/-- `qp_socket_assign_inet6`, which is not supported. -/
def socketAssignInet6 : Cmd Objects Ptr := return NULL

/-- `qp_socket_assign_unix`. -/
def socketAssignUnix (skt : Ptr) : Cmd Objects Ptr := do
  if ← socketIsListen skt then
    -- delete exit file
    let _ ← answer
    return skt
  else
    -- client descriptor
    let _ ← answer
    if (← answer) ≠ QP_SUCCESS then return NULL -- bind
    else if (← answer) ≠ QP_SUCCESS then -- chmod, owner only
      let _ ← answer
      return NULL
    else return skt

/-- `qp_socket_assign_packet`, which is not supported. -/
def socketAssignPacket : Cmd Objects Ptr := return NULL

/-- The switch over the domains in `qp_socket_init`. -/
def socketAssign (skt : Ptr) (name : List UInt8) : Cmd Objects Ptr := do
  let domain := (← socketAt skt).domain
  if domain = QP_SOCKET_DOMAIN_INET then socketAssignInet skt name
  else if domain = QP_SOCKET_DOMAIN_INET6 then socketAssignInet6
  else if domain = QP_SOCKET_DOMAIN_UNIX then socketAssignUnix skt
  else if domain = QP_SOCKET_DOMAIN_PACKET then socketAssignPacket
  else return NULL

/-- What `qp_socket_init` checks before it creates anything. -/
def socketArgs (domain type : Int) (name : Option (List UInt8)) (port : UInt16) : Bool :=
  (if domain = QP_SOCKET_DOMAIN_INET ∨ domain = QP_SOCKET_DOMAIN_INET6 then name.isSome && port != 0
    else if domain = QP_SOCKET_DOMAIN_UNIX then name.any (·.length < sizeofSunPath)
    else false) &&
  (type = QP_SOCKET_TYPE_STREAM || type = QP_SOCKET_TYPE_DGRAM || type = QP_SOCKET_TYPE_RAW)

/-- `qp_socket_init`. -/
def socketInit (skt : Ptr) (domain type : Int) (name : Option (List UInt8)) (port : UInt16) (asServer : Bool)
    (serverBacklog : Int) : Cmd Objects Ptr := do
  if socketArgs domain type name port then
    -- create socket
    let skt ← socketCreate skt
    if skt = NULL then return NULL
    else
      setSocket skt fun x => { x with domain := domain, type := type }
      when (asServer = true) do
        setSocket skt fun x => { x with isListen := true }
        setSocket skt fun x =>
          { x with backlog := if serverBacklog > 0 then serverBacklog else QP_SOCKET_DEFAULT_LISTENBACKLOG }
      -- get socket
      openInto skt false
      if ← fdIsValid skt then
        let assign ← socketAssign skt (name.getD [])
        if assign ≠ NULL then return assign
        else
          let _ ← socketDestroy skt
          return NULL
      else
        let _ ← socketDestroy skt
        return NULL
  else return NULL

/-- `qp_socket_accept`. -/
def socketAccept (skt sktClient : Ptr) : Cmd Objects Ptr := do
  if ← socketIsListen skt then
    if ← fdIsValid skt then
      let sktClient ← socketCreate sktClient
      if sktClient = NULL then return NULL
      else
        let server ← socketAt skt
        setSocket sktClient fun x => { x with domain := server.domain, type := server.type }
        let _ ← fdAt skt
        openInto sktClient false
        return sktClient
    else return NULL
  else return NULL

/-- `qp_socket_set_noblock`. -/
def socketSetNoblock (skt : Ptr) : Cmd Objects Int := if skt = NULL then return QP_ERROR else fdSetNoBlock skt

/-! ### Files -/

def FileObject.zero : FileObject := ⟨NULL, NULL, 0, 0, 0, false, false⟩

def fileIs (q : FileObject → Bool) (file : Ptr) : Cmd Objects Bool :=
  if file = NULL then return false else return q (← fileAt file)

def fileIsAlloced : Ptr → Cmd Objects Bool := fileIs (·.isAlloced)
def fileIsDirectIO : Ptr → Cmd Objects Bool := fileIs fun file => file.isDirectIO

/-- `qp_file_create`. -/
def fileCreate (file : Ptr) (mod : BitVec 32) : Cmd Objects Ptr := do
  let p ← memoryFor file
  if p = NULL then return NULL
  else
    setFd p fun _ => FdObject.zero
    setFile p fun _ => { FileObject.zero with isAlloced := file = NULL }
    -- init qp_fd_t
    if (← fdInit p .file (mod &&& QP_FILE_AIO ≠ 0)) = NULL then
      if ← fileIsAlloced p then free p
      return NULL
    else
      setFile p fun x => { x with openFlag := O_RDONLY }
      return p

/-- `qp_file_close`. Before that the rest of the write buffer goes out, as in `Direct.fileClose`. -/
def fileClose (file : Ptr) : Cmd Objects Int := do
  if file = NULL then return QP_ERROR
  else if ← fdIsValid file then
    let _ ← fileAt file
    fdClose file
  else return QP_ERROR

/-- `qp_file_destroy`. -/
def fileDestroy (file : Ptr) : Cmd Objects Int := do
  if ← fdIsInited file then
    let _ ← fileClose file
    let _ ← fdDestroy file
    when ((← fileAt file).wrbuf ≠ NULL) do
      free (← fileAt file).wrbuf
      setFile file fun x => { x with wrbuf := NULL }
    when ((← fileAt file).rdbuf ≠ NULL) do
      free (← fileAt file).rdbuf
      setFile file fun x => { x with rdbuf := NULL }
    setFile file fun x => { x with isDirectIO := false }
    if ← fileIsAlloced file then free file
    return QP_SUCCESS
  else return QP_ERROR

/-- `qp_file_init`. -/
def fileInit (file : Ptr) (mod : BitVec 32) (bufsize : Nat) : Cmd Objects Ptr := do
  -- does not support AIO
  let mod := mod &&& ~~~ QP_FILE_AIO
  let file ← fileCreate file mod
  if file = NULL then return NULL
  else
    let direct : Bool := QP_FILE_DIRECTIO &&& mod ≠ 0 ∧ 0 < bufsize
    when (direct = true) (setFile file fun x => { x with wrbufSize := bufsize, rdbufSize := bufsize })
    let mod := if direct then mod else mod &&& ~~~ QP_FILE_DIRECTIO
    when (mod = QP_FILE_DIRECTIO) do
      let wrbuf ← alloc
      setFile file fun x => { x with wrbuf := wrbuf }
      let rdbuf ← alloc
      setFile file fun x => { x with rdbuf := rdbuf }
      setFile file fun x => { x with isDirectIO := true }
    let x ← fileAt file
    if QP_FILE_DIRECTIO &&& mod ≠ 0 ∧ (x.rdbuf = NULL ∨ x.wrbuf = NULL) then
      let _ ← fileDestroy file
      return NULL
    else return file

/-- `qp_file_open` of a path with `path` characters. -/
def fileOpen (file : Ptr) (path : Nat) (oflag : BitVec 32) : Cmd Objects Int := do
  if file = NULL then return QP_ERROR
  else if (← fdIsValid file) ∨ path > QP_FILE_PATH_LEN_MAX then return QP_ERROR
  else
    setFile file fun x => { x with openFlag := oflag }
    when ((← fileIsDirectIO file) = true) (setFile file fun x => { x with openFlag := x.openFlag ||| O_DIRECT })
    openInto file ((← fileAt file).openFlag.getLsbD nonblockBit)
    if (← fdAt file).fd < 0 then return QP_ERROR
    else
      let _ ← answer -- fstat
      return QP_SUCCESS

end Objects

/-! ### Clients -/

inductive Kind where
  | fd
  | socket
  | file
deriving DecidableEq, Repr

/-- The functions that make an object, in memory of the caller or, where that is `NULL`, in memory of its own. -/
inductive Create where
  | fdInit (fd : Ptr) (type : FdType) (aio : Bool)
  | socketInit (skt : Ptr) (domain type : Int) (name : Option (List UInt8)) (port : UInt16) (asServer : Bool)
      (serverBacklog : Int)
  | socketAccept (skt sktClient : Ptr)
  | fileInit (file : Ptr) (mod : BitVec 32) (bufsize : Nat)
deriving DecidableEq, Repr

/-- The functions that use an object. With `openInto` the caller gives a `qp_fd_t` without a descriptor one. -/
inductive Use where
  | openInto (fd : Ptr) (nonblock : Bool)
  | fdClose (fd : Ptr)
  | fdSetNoBlock (fd : Ptr)
  | fdSetBlock (fd : Ptr)
  | socketClose (skt : Ptr) (shut : Int)
  | socketSetNoblock (skt : Ptr)
  | fileOpen (file : Ptr) (path : Nat) (oflag : BitVec 32)
  | fileClose (file : Ptr)
deriving DecidableEq, Repr

def Create.kind : Create → Kind
  | .fdInit .. => .fd
  | .socketInit .. | .socketAccept .. => .socket
  | .fileInit .. => .file

/-- Where the object shall be. -/
def Create.target : Create → Ptr
  | .fdInit fd _ _ => fd
  | .socketInit skt .. => skt
  | .socketAccept _ sktClient => sktClient
  | .fileInit file _ _ => file

def Create.run : Create → Cmd Objects Ptr
  | .fdInit fd type aio => Objects.fdInit fd type aio
  | .socketInit skt domain type name port asServer serverBacklog =>
    Objects.socketInit skt domain type name port asServer serverBacklog
  | .socketAccept skt sktClient => Objects.socketAccept skt sktClient
  | .fileInit file mod bufsize => Objects.fileInit file mod bufsize

def Use.kind : Use → Kind
  | .openInto .. | .fdClose .. | .fdSetNoBlock .. | .fdSetBlock .. => .fd
  | .socketClose .. | .socketSetNoblock .. => .socket
  | .fileOpen .. | .fileClose .. => .file

def Use.target : Use → Ptr
  | .openInto fd _ | .fdClose fd | .fdSetNoBlock fd | .fdSetBlock fd => fd
  | .socketClose skt _ | .socketSetNoblock skt => skt
  | .fileOpen file _ _ | .fileClose file => file

def Use.run : Use → Cmd Objects Int
  | .openInto fd nonblock => do
    Objects.openInto fd nonblock
    return QP_SUCCESS
  | .fdClose fd => Objects.fdClose fd
  | .fdSetNoBlock fd => Objects.fdSetNoBlock fd
  | .fdSetBlock fd => Objects.fdSetBlock fd
  | .socketClose skt shut => Objects.socketClose skt shut
  | .socketSetNoblock skt => Objects.socketSetNoblock skt
  | .fileOpen file path oflag => Objects.fileOpen file path oflag
  | .fileClose file => Objects.fileClose file

/-- `qp_fd_destroy`, `qp_socket_destroy` and `qp_file_destroy`. -/
def Kind.destroy : Kind → Ptr → Cmd Objects Int
  | .fd => Objects.fdDestroy
  | .socket => Objects.socketDestroy
  | .file => Objects.fileDestroy

/-- A handle of a client: an address and the kind of the object that it is for. -/
abbrev Handle := Ptr × Kind

/-- A process whose client has the handles `handles`. -/
structure Client where
  objects : Objects
  handles : List Handle

/-- The calls of a client. -/
inductive ClientCall where
  | create (c : Create)
  | use (u : Use)
  | destroy (h : Handle)
deriving DecidableEq, Repr

namespace Client

/-- The client obtains a handle where an object is made in memory of its own, and gives it up with the memory. -/
def call (w : Client) : ClientCall → Except Halt Client
  | .create c => do
    let (p, objects) ← c.run w.objects
    return ⟨objects, if c.target = NULL ∧ p ≠ NULL then (p, c.kind) :: w.handles else w.handles⟩
  | .use u => do
    let (_, objects) ← u.run w.objects
    return ⟨objects, w.handles⟩
  | .destroy h => do
    let (_, objects) ← h.2.destroy h.1 w.objects
    return ⟨objects, if h.1 ∈ w.objects.own then w.handles else w.handles.erase h⟩

end Client

end QPHi
