import QPHi.Lib.Command
import QPHi.Pool

/-! The event loop of `qp_event.c`: the sources of an event, their read and write caches, the descriptors they
    stand for, and the functions that add, dispatch, remove and destroy them. The kernel, `malloc` and the handlers answer
    as they like; their answers come from a sequence that is part of the state. -/

namespace QPHi
open Command

/-! ### Constants -/

/-- `(size_t)QP_ERROR`. -/
def sizeError : Nat := 2 ^ 64 - 1

/-- `QP_EVENT_READCACHE_SIZE`, the size of every cache. -/
def readcacheSize : Nat := 4096

/-- `sizeof(struct qp_event_source_s)` and the offset of `event_pool` in `struct qp_event_s`, whose first member is
    `source_cache_pool`. -/
def sizeofSource : Nat := 136
def offsetofEventPool : Nat := 72

def EPOLL_IN : Nat := 0x1
def EPOLL_OUT : Nat := 0x4
def EPOLL_ERR : Nat := 0x8
def EPOLL_HUP : Nat := 0x10
def EPOLL_RDHUP : Nat := 0x2000
def EPOLL_EXCLUSIVE : Nat := 0x10000000
def EPOLL_ET : Nat := 0x80000000

/-- `qp_event_stat_t`. -/
inductive EventStat where
  | idl
  | new
  | process
  | close
deriving DecidableEq, Repr

/-! ### State -/

/-- `struct qp_event_source_s` without its list and timer nodes. The flags are fields of one bit. -/
structure Source where
  readCache : Ptr
  writeCache : Ptr
  readCacheSize : Nat
  writeCacheSize : Nat
  readCacheOffset : Nat
  writeCacheOffset : Nat
  writeCacheCurOffset : Nat
  sourceFd : Int
  index : Nat
  events : Nat
  revents : Nat
  timeout : Int
  stat : EventStat
  closed : Bool
  listen : Bool
  shutdown : Bool
  urgen : Bool
  write : Bool
  read : Bool
  writeClose : Bool
  noblock : Bool
  edge : Bool
deriving DecidableEq, Repr

/-- A source whose memory is zero. -/
def Source.zero : Source :=
  ⟨NULL, NULL, 0, 0, 0, 0, 0, 0, 0, 0, 0, 0, .idl, false, false, false, false, false, false, false, false, false⟩

/-- `qp_event_source_clear_flag`. -/
def Source.clearFlag (s : Source) : Source :=
  { s with
    listen := false
    closed := false
    shutdown := false
    urgen := false
    write := false
    read := false
    writeClose := false
    stat := .idl }

/-- What the kernel, `malloc` and the handlers answer to one call; each call looks at the part it needs. -/
structure Reply where
  /-- the descriptor of `accept` -/
  fd : Int
  /-- the count of `read` and `write` -/
  count : Int
  /-- `errno` is `EAGAIN`, `EWOULDBLOCK` or `EINTR` -/
  retry : Bool
  /-- the result of a process handler or of `qp_event_ev_add` -/
  result : Int
  /-- what the write handler stores in `*write_bytes` -/
  bytes : Nat
  /-- what is put into memory -/
  data : Nat → UInt8
  /-- the two blocks that `qp_manager_alloc` may ask for -/
  elm : Ptr
  room : Ptr

/-- The calls that leave the event loop, with the bytes that were passed. -/
inductive Call where
  | accept (fd result : Int)
  | close (fd : Int)
  | read (source buf count : Nat) (result : Int) (data : List UInt8)
  | write (source buf count : Nat) (result : Int) (data : List UInt8)
  | readHandler (source : Ptr) (stat : EventStat) (data : List UInt8) (result : Int)
  | writeHandler (source : Ptr) (stat : EventStat) (size bytes : Nat) (result : Int)
  | add (source : Ptr) (result : Int)
  | del (source : Ptr)
  | reset (source : Ptr) (flag : Nat)
deriving DecidableEq, Repr

/-- The descriptors of the process. Every `accept` that succeeds has a number; the kernel hands out a descriptor
    that is not open, and `closes` counts the calls of `close` for each accept. -/
structure Kernel where
  isOpen : Int → Bool
  accepts : Nat
  accepted : Nat → Int
  /-- the accept that an open or closed descriptor comes from -/
  tenure : Int → Option Nat
  closes : Nat → Nat

/-- `accept`, which answers with `fd?` if that is a descriptor that the kernel can hand out. -/
def Kernel.accept (k : Kernel) (fd? : Int) : Kernel × Int :=
  if 0 ≤ fd? ∧ k.isOpen fd? = false then
    ({ k with
      isOpen := Function.update k.isOpen fd? true
      accepts := k.accepts + 1
      accepted := Function.update k.accepted k.accepts fd?
      tenure := Function.update k.tenure fd? (some k.accepts) }, fd?)
  else (k, QP_FD_INVALID)

def Kernel.close (k : Kernel) (fd : Int) : Kernel :=
  { k with
    isOpen := Function.update k.isOpen fd false
    closes :=
      match k.tenure fd with
      | some n => Function.update k.closes n (k.closes n + 1)
      | none => k.closes }

/-- The callbacks that are installed. -/
structure Handles where
  add : Bool
  del : Bool
  reset : Bool
  read : Bool
  write : Bool
deriving DecidableEq, Repr

/-- `struct qp_event_s` and what is outside of it. The pool of the sources and the manager of the caches share no
    memory, so each has a heap of its own. -/
structure Event where
  caches : Heap
  sourceCachePool : Ptr
  pool : Heap
  eventPool : Ptr
  source : Ptr → Source
  handles : Handles
  kernel : Kernel
  memory : Nat → UInt8
  trace : List Call
  replies : Nat → Reply
  clock : Nat

abbrev EventM (α : Type) := Cmd Event α

namespace Event

/-! ### Reading and writing the state -/

def getSource (source : Ptr) : EventM Source := do return (← get).source source

def setSource (source : Ptr) (f : Source → Source) : EventM Unit :=
  modify fun e => { e with source := Function.update e.source source (f (e.source source)) }

def handle : EventM Handles := do return (← get).handles

/-- The answer to the next call. -/
def reply : EventM Reply := modifyGet fun e => (e.replies e.clock, { e with clock := e.clock + 1 })

def record (call : Call) : EventM Unit := modify fun e => { e with trace := call :: e.trace }

/-- The bytes of the memory from `a` on. -/
def bytesAt (memory : Nat → UInt8) (a n : Nat) : List UInt8 := (List.range n).map fun i => memory (a + i)

/-- `data` is stored from `a` on. -/
def store (a n : Nat) (data : Nat → UInt8) : EventM Unit :=
  modify fun e => { e with memory := fun b => if a ≤ b ∧ b < a + n then data (b - a) else e.memory b }

/-! ### System calls and callbacks -/

def sysAccept (fd : Int) : EventM (Int × Bool) := do
  let r ← reply
  let result ← modifyGet fun e => ((e.kernel.accept r.fd).2, { e with kernel := (e.kernel.accept r.fd).1 })
  record (.accept fd result)
  return (result, r.retry)

def sysClose (fd : Int) : EventM Unit := do
  modify fun e => { e with kernel := e.kernel.close fd }
  record (.close fd)

/-- `read` returns at most as many bytes as it was asked for. -/
def sysRead (source : Ptr) (buf count : Nat) : EventM (Int × Bool) := do
  let r ← reply
  let result := min r.count count
  store buf result.toNat r.data
  record (.read source buf count result (bytesAt r.data 0 result.toNat))
  return (result, r.retry)

def sysWrite (source : Ptr) (buf count : Nat) : EventM (Int × Bool) := do
  let r ← reply
  let result := min (min r.count count) (2 ^ 63 - 1)
  record (.write source buf count result (bytesAt (← get).memory buf result.toNat))
  return (result, r.retry)

/-- `qp_event_ev_add`. -/
def evAdd (source : Ptr) : EventM Int := do
  let r ← reply
  record (.add source r.result)
  return r.result

/-- `qp_manager_alloc` on `source_cache_pool`. -/
def cacheAlloc (size : Nat) : EventM Ptr := do
  let r ← reply
  let e ← get
  match e.caches.managerAlloc r.elm r.room e.sourceCachePool size with
  | none => stuck
  | some (caches, cache) =>
    set { e with caches := caches }
    return cache

/-- `qp_manager_free` on `source_cache_pool`. -/
def cacheFree (cache : Ptr) : EventM Unit := do
  let e ← get
  match e.caches.managerFree e.sourceCachePool cache with
  | none => stuck
  | some (caches, _) => set { e with caches := caches }

/-! ### Sources -/

def sourceSetShutdown (source : Ptr) : EventM Unit :=
  when (source ≠ NULL) (setSource source fun s => { s with shutdown := true, stat := .close })

/-- `qp_event_source_accept`, with whether a failure is one to try again after. -/
def sourceAccept (source : Ptr) : EventM (Int × Bool) := do
  if source = NULL then return (QP_ERROR, false)
  else sysAccept (← getSource source).sourceFd

/-- `qp_event_source_close`. -/
def sourceClose (source : Ptr) : EventM Int := do
  if source = NULL then return QP_ERROR
  else
    let s ← getSource source
    when (s.closed ∧ QP_FD_INVALID ≠ s.sourceFd) (sysClose s.sourceFd)
    setSource source fun s => { s with sourceFd := QP_FD_INVALID }
    return QP_SUCCESS

/-- `qp_event_source_alloc_read_cache`. -/
def sourceAllocReadCache (source : Ptr) : EventM Int := do
  let s ← getSource source
  if source = NULL ∨ s.readCache ≠ NULL then return QP_ERROR
  else
    setSource source fun s => { s with readCacheSize := readcacheSize }
    let cache ← cacheAlloc readcacheSize
    setSource source fun s => { s with readCache := cache }
    if cache = NULL then
      setSource source fun s => { s with readCacheSize := 0 }
      return QP_ERROR
    else return QP_SUCCESS

/-- `qp_event_source_free_read_cache`. -/
def sourceFreeReadCache (source : Ptr) : EventM Int := do
  let s ← getSource source
  if source = NULL ∨ s.readCache = NULL then return QP_ERROR
  else
    cacheFree s.readCache
    setSource source fun s => { s with readCacheSize := 0, readCache := NULL }
    return QP_SUCCESS

/-- `qp_event_source_alloc_write_cache`. -/
def sourceAllocWriteCache (source : Ptr) : EventM Int := do
  let s ← getSource source
  if source = NULL ∨ s.writeCache ≠ NULL then return QP_ERROR
  else
    setSource source fun s => { s with writeCacheSize := readcacheSize, writeCacheCurOffset := 0 }
    let cache ← cacheAlloc readcacheSize
    setSource source fun s => { s with writeCache := cache }
    if cache = NULL then
      setSource source fun s => { s with writeCacheSize := 0 }
      return QP_ERROR
    else return QP_SUCCESS

/-- `qp_event_source_free_write_cache`. -/
def sourceFreeWriteCache (source : Ptr) : EventM Int := do
  let s ← getSource source
  if source = NULL ∨ s.writeCache = NULL then return QP_ERROR
  else
    cacheFree s.writeCache
    setSource source fun s => { s with writeCacheSize := 0, writeCache := NULL }
    return QP_SUCCESS

/-- A round of the loop of `qp_event_source_read`, which asks for `rest` bytes. It leaves with whether the read went
    well. -/
def readRound (source : Ptr) (rest : Nat) : EventM (Next Nat Bool) := do
  let s ← getSource source
  let (ret, retry) ← sysRead source (s.readCache + s.readCacheOffset) rest
  if ret < 1 then
    -- closed or some error
    if ret = 0 ∨ !retry then
      sourceSetShutdown source
      return .done false
    else return .done true
  else
    setSource source fun s => { s with readCacheOffset := addWord s.readCacheOffset ret.toNat }
    let s ← getSource source
    if subWord s.readCacheSize s.readCacheOffset = 0 then
      when (← handle).reset (record (.reset source (if s.writeCache ≠ NULL then EPOLL_OUT else 0)))
      return .done true
    else if s.edge then return .again (subWord s.readCacheSize s.readCacheOffset)
    else return .done true

/-- `qp_event_source_read`. -/
def sourceRead (fuel : Nat) (source : Ptr) : EventM Nat := do
  if source = NULL then return 0
  else
    setSource source fun s => { s with readCacheOffset := 0 }
    if (← getSource source).read then
      setSource source fun s => { s with read := false }
      if (← sourceAllocReadCache source) = QP_ERROR then
        sourceSetShutdown source
        return sizeError
      else
        let s ← getSource source
        let well ← loop (readRound source) fuel (subWord s.readCacheSize s.readCacheOffset)
        if well then return (← getSource source).readCacheOffset else return sizeError
    else return (← getSource source).readCacheOffset

/-- A `size_t` as a `ssize_t`. -/
def signed (n : Nat) : Int := if n < 2 ^ 63 then n else (n : Int) - 2 ^ 64

/-- A `ssize_t` as a `size_t`. -/
def unsigned (n : Int) : Nat := (n % 2 ^ 64).toNat

/-- A round of the loop of `qp_event_source_write`: `rest` bytes are sent and `ret` are to be sent. It leaves with
    the number of bytes that are sent, or with nothing if the source is to be closed. -/
def writeRound (source : Ptr) (state : Nat × Int) : EventM (Next (Nat × Int) (Option Nat)) := do
  let s ← getSource source
  let (ret, retry) ← sysWrite source (s.writeCache + state.1) (unsigned state.2)
  if ret < 1 then
    if ret = 0 ∨ !retry ∨ s.writeClose then
      sourceSetShutdown source
      let _ ← sourceFreeReadCache source
      setSource source fun s => { s with writeClose := false, write := false }
      return .done none
    else
      setSource source fun s => { s with writeCacheCurOffset := state.1 }
      return .done (some state.1)
  else
    let rest := addWord state.1 ret.toNat
    let ret := signed (subWord s.writeCacheOffset rest)
    if 0 ≥ ret then
      -- write finish
      let _ ← sourceFreeWriteCache source
      return .done (some rest)
    else if s.edge then return .again (rest, ret)
    else return .done (some rest)

/-- `qp_event_source_write`. -/
def sourceWrite (fuel : Nat) (source : Ptr) : EventM Nat := do
  let s ← getSource source
  if source = NULL ∨ s.writeCache = NULL then return sizeError
  else if s.write then
    setSource source fun s => { s with write := false }
    let sent ← loop (writeRound source) fuel
      (s.writeCacheCurOffset, signed (subWord s.writeCacheOffset s.writeCacheCurOffset))
    return sent.getD sizeError
  else return s.writeCacheCurOffset

/-! ### The event loop -/

/-- `qp_event_removeevent`. -/
def removeevent (source : Ptr) : EventM Int := do
  if source = NULL then return QP_ERROR
  else
    when (← handle).del (record (.del source))
    let _ ← sourceClose source
    let _ ← sourceFreeReadCache source
    let _ ← sourceFreeWriteCache source
    modify fun e => { e with pool := (e.pool.poolFree e.eventPool source).1 }
    return QP_SUCCESS

/-- `qp_event_addevent`. A pool that counts an element as free hands one out. -/
def addevent (fd timeout : Int) (listen autoClose : Bool) : EventM Int := do
  let e ← get
  if !e.handles.add then return QP_ERROR
  else if e.pool.poolAvailable e.eventPool ≠ 0 ∧ fd > QP_FD_INVALID then
    let (pool, source) := e.pool.poolAlloc e.eventPool sizeofSource
    set { e with pool := pool }
    if source = NULL then stuck
    else
      setSource source fun s =>
        { s.clearFlag with listen := listen, closed := autoClose, sourceFd := fd, timeout := timeout }
      if (← evAdd source) = QP_ERROR then
        setSource source fun s => { s with sourceFd := QP_FD_INVALID }
        let _ ← removeevent source
        return QP_ERROR
      else
        setSource source fun s => { s with stat := if s.listen then .process else .new }
        return QP_SUCCESS
  else return QP_ERROR

/-- A round of the loop that accepts the connections of a listening source. -/
def acceptRound (timeout : Int) (source : Ptr) (_ : Unit) : EventM (Next Unit Unit) := do
  let (fd, retry) ← sourceAccept source
  if fd = QP_FD_INVALID then
    when (!retry) (do let _ ← removeevent source)
    return .done ()
  else
    when ((← addevent fd timeout false true) = QP_ERROR) (sysClose fd)
    if (← getSource source).edge then return .again () else return .done ()

/-- `qp_event_dispatch_listen_queue`, which takes the sources off the list `listen_ready` one by one. -/
def dispatchListenQueue (fuel : Nat) (timeout : Int) : List Ptr → EventM Unit
  | [] => return ()
  | source :: listenReady => do
    loop (acceptRound timeout source) fuel ()
    dispatchListenQueue fuel timeout listenReady

/-- The read handler of the caller. -/
def readHandler (source : Ptr) : EventM Int := do
  if (← handle).read then
    let r ← reply
    let s ← getSource source
    record (.readHandler source s.stat (bytesAt (← get).memory s.readCache s.readCacheOffset) r.result)
    return r.result
  else return 0

/-- The write handler of the caller, which fills the cache. -/
def writeHandler (source : Ptr) : EventM Int := do
  if (← handle).write then
    let r ← reply
    let s ← getSource source
    store s.writeCache s.writeCacheSize r.data
    setSource source fun s => { s with writeCacheOffset := r.bytes }
    record (.writeHandler source s.stat s.writeCacheSize r.bytes r.result)
    return r.result
  else stuck

/-- A read cache is handed to the read handler, which may ask for a write cache. -/
def processRead (source : Ptr) : EventM Unit := do
  let ret ← readHandler source
  let _ ← sourceFreeReadCache source
  when ((← getSource source).stat = .new ∧ ret > QP_ERROR) (setSource source fun s => { s with stat := .process })
  when (ret < 0) (sourceSetShutdown source)
  when (ret > 0 ∧ !(← getSource source).shutdown ∧ (← handle).write) (do
    when ((← sourceAllocWriteCache source) = QP_ERROR) (sourceSetShutdown source))

/-- The write handler fills the write cache. -/
def processWrite (source : Ptr) : EventM Unit := do
  let ret ← writeHandler source
  if 0 > ret then
    sourceSetShutdown source
    let _ ← sourceFreeWriteCache source
  else
    when (← handle).reset (record (.reset source EPOLL_OUT))
    when (ret = 0) (setSource source fun s => { s with writeClose := true })

/-- A field of one bit keeps the lowest bit of what is assigned to it. -/
def bit (n : Nat) : Bool := n % 2 = 1

/-- What `qp_event_dispatch_queue` does with one source. -/
def dispatchSource (fuel : Nat) (source : Ptr) : EventM Unit := do
  setSource source fun s => { s with
    shutdown := bit (s.shutdown.toNat ||| (s.revents &&& (EPOLL_RDHUP ||| EPOLL_HUP ||| EPOLL_ERR)))
    read := bit (s.read.toNat ||| (s.revents ||| EPOLL_IN))
    write := bit (s.write.toNat ||| (s.revents ||| EPOLL_OUT)) }
  let s ← getSource source
  when (s.shutdown || s.read || s.write) (do
    when s.shutdown (sourceSetShutdown source)
    let _ ← sourceWrite fuel source
    let _ ← sourceRead fuel source
    when ((← getSource source).writeCache = NULL) (do
      when ((← getSource source).readCache ≠ NULL) (processRead source)
      when ((← getSource source).writeCache ≠ NULL) (processWrite source))
    when (← getSource source).shutdown (do let _ ← removeevent source))

/-- `qp_event_dispatch_queue`, which takes the sources off the list `ready` one by one. -/
def dispatchQueue (fuel : Nat) : List Ptr → EventM Unit
  | [] => return ()
  | source :: ready => do
    dispatchSource fuel source
    dispatchQueue fuel ready

/-- What the kernel reports about the sources before they are dispatched. -/
def report (revents : Ptr → Nat) (e : Event) : Event :=
  { e with source := fun p => { e.source p with revents := revents p } }

/-! ### Making an event -/

/-- A source as `qp_event_init` leaves it. -/
def initSource (noblock edge : Bool) (index : Nat) : Source :=
  { Source.zero with
    index := index
    sourceFd := QP_FD_INVALID
    events := EPOLL_IN ||| EPOLL_RDHUP ||| EPOLL_EXCLUSIVE ||| (if edge then EPOLL_ET else 0)
    noblock := noblock
    edge := edge }

/-- The loop of `qp_event_init` over the elements of the pool. -/
def initSources (pool : Heap) (eventPool : Ptr) (noblock edge : Bool) : Nat → (Ptr → Source) → Ptr → Source
  | 0, sources => sources
  | n + 1, sources =>
    Function.update (initSources pool eventPool noblock edge n sources) (pool.poolToArray eventPool n)
      (initSource noblock edge n)

/-- `qp_event_init` for an event at `event`, once the callbacks are there and `qp_event_ev_create` has made a
    descriptor; `none` if it returns `NULL`. The room of the pool is at `room?` if `malloc` grants it. -/
def eventInit (event room? : Ptr) (maxEventSize : Nat) (noblock edge : Bool) (e : Event) : Option Event :=
  if maxEventSize < 1 then none
  else
    match e.pool.poolInit NULL room? (event + offsetofEventPool) sizeofSource (maxEventSize * 2) with
    | none => none
    | some (pool, eventPool) =>
      if eventPool = NULL then none
      else
        let (caches, sourceCachePool) := e.caches.managerInit NULL event readcacheSize (maxEventSize / 2)
        if sourceCachePool = NULL then none
        else some { e with
          pool := pool
          eventPool := eventPool
          caches := caches
          sourceCachePool := sourceCachePool
          source := initSources pool eventPool noblock edge (maxEventSize * 2) e.source }

/-! ### Destroying an event -/

/-- `qp_fd_close` on the descriptor of the event itself. -/
def fdClose (eventFd : Int) : EventM Unit := when (eventFd ≠ QP_FD_INVALID) (sysClose eventFd)

/-- The loop of `qp_event_destroy` over the elements of the pool. -/
def removeSources : Nat → EventM Unit
  | 0 => return ()
  | n + 1 => do
    removeSources n
    let e ← get
    let _ ← removeevent (e.pool.poolToArray e.eventPool n)

/-- `qp_event_destroy` for an event in memory of the caller. `eventFd` is the descriptor in `event_fd`, `inited` is its
    flag, and `eventpoolSize` is the `max_event_size` of `qp_event_init`. -/
def eventDestroy (fuel : Nat) (eventFd : Int) (inited isRun : Bool) (eventpoolSize : Nat) : EventM Int := do
  if inited ∧ !isRun then
    fdClose eventFd
    removeSources eventpoolSize
    let e ← get
    match e.pool.poolDestroy e.eventPool true, e.caches.managerDestroy fuel e.sourceCachePool true with
    | some (pool, _), some (caches, _) =>
      set { e with pool := pool, caches := caches }
      return QP_SUCCESS
    | _, _ => stuck
  else return QP_ERROR

end Event

end QPHi
