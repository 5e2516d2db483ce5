import Mathlib.Logic.Function.Basic
import QPHi.Basic
import QPHi.Heap
import QPHi.Lib.Trans

/-! The re-entrant lock of `core/qp_ipc_core.c`, one load, store or atomic operation at a time. -/

namespace QPHi

/-- `pthread_self()` and `getpid()` of each thread. -/
structure Ids (T : Type) where
  thread : T → Nat
  process : T → Nat

/-- The fields of `struct qp_ipc_lock_s` that change. The spin word is 1, or the mutex is locked, exactly when
    `taken` names a thread. -/
structure Lock (T : Type) where
  taken : Option T
  holdThread : Nat
  holdProcess : Nat
  holdCounter : Nat

/-- A lock as `qp_lock_init` makes it. -/
def Lock.init (T : Type) : Lock T := ⟨none, 0, 0, 0⟩

inductive LockCall where
  | lock
  | trylock
deriving DecidableEq, Repr

/-- The points of `qp_lock_lock` and `qp_lock_trylock` between two accesses to the lock. -/
inductive LockPc where
  | loadCounter (call : LockCall)
  | loadThread (call : LockCall)
  | loadProcess (call : LockCall)
  | reenter
  | acquire (call : LockCall)
  | setThread
  | setProcess
  | count
deriving DecidableEq, Repr

/-- The points of `qp_lock_unlock`. -/
inductive UnlockPc where
  | loadCounter
  | loadThread
  | loadProcess
  | uncount
  | recheck
  | clearThread
  | clearProcess
  | release
deriving DecidableEq, Repr

/-- After an access a function goes on, or returns a code. -/
inductive Outcome (P : Type) where
  | goto (p : P)
  | ret (r : Int)
deriving DecidableEq, Repr

/-- The successes of a call that the outcome reports. -/
def Outcome.successes {P : Type} : Outcome P → Nat
  | .goto _ => 0
  | .ret r => if r = QP_SUCCESS then 1 else 0

/-- What the last call returned. -/
def Outcome.result {P : Type} (last : Int) : Outcome P → Int
  | .goto _ => last
  | .ret r => r

/-- `pthread_mutex_unlock` of a mutex that another thread has, or none. -/
abbrev EPERM : Int := 1

section
variable {T : Type} [DecidableEq T] (spin : Bool) (ids : Ids T) (t : T)

/-- One access of `qp_lock_lock` or `qp_lock_trylock` by `t`; `none` while `pthread_mutex_lock` blocks. The
    mutex checks for errors, so a thread that has it already is refused. -/
def lockAdvance (l : Lock T) : LockPc → Option (Lock T × Outcome LockPc)
  | .loadCounter call => some (l, .goto (if l.holdCounter ≠ 0 then .loadThread call else .acquire call))
  | .loadThread call => some (l, .goto (if l.holdThread = ids.thread t then .loadProcess call else .acquire call))
  | .loadProcess call => some (l, .goto (if l.holdProcess = ids.process t then .reenter else .acquire call))
  | .reenter => some ({ l with holdCounter := addWord l.holdCounter 1 }, .ret QP_SUCCESS)
  | .acquire call =>
    match l.taken, call with
    | none, _ => some ({ l with taken := some t }, .goto .setThread)
    | some _, .trylock => some (l, .ret QP_ERROR)
    | some u, .lock =>
      if spin then some (l, .goto (.acquire .lock))
      else if u = t then some (l, .ret QP_ERROR)
      else none
  | .setThread => some ({ l with holdThread := ids.thread t }, .goto .setProcess)
  | .setProcess => some ({ l with holdProcess := ids.process t }, .goto .count)
  | .count => some ({ l with holdCounter := addWord l.holdCounter 1 }, .ret QP_SUCCESS)

/-- One access of `qp_lock_unlock` by `t`. -/
def unlockAdvance (l : Lock T) : UnlockPc → Lock T × Outcome UnlockPc
  | .loadCounter => (l, if l.holdCounter < 1 then .ret QP_ERROR else .goto .loadThread)
  | .loadThread => (l, if l.holdThread = ids.thread t then .goto .loadProcess else .ret QP_ERROR)
  | .loadProcess => (l, if l.holdProcess = ids.process t then .goto .uncount else .ret QP_ERROR)
  | .uncount => ({ l with holdCounter := subWord l.holdCounter 1 }, .goto .recheck)
  | .recheck => (l, if l.holdCounter ≠ 0 then .ret QP_SUCCESS else .goto .clearThread)
  | .clearThread => ({ l with holdThread := 0 }, .goto .clearProcess)
  | .clearProcess => ({ l with holdProcess := 0 }, .goto .release)
  | .release =>
    if spin then
      if l.taken.isSome then ({ l with taken := none }, .ret QP_SUCCESS) else (l, .ret QP_ERROR)
    else
      if l.taken = some t then ({ l with taken := none }, .ret QP_SUCCESS) else (l, .ret EPERM)

end

/-- Where a thread is: in one of the lock functions. -/
inductive Pc where
  | enter (p : LockPc)
  | leave (p : UnlockPc)
deriving DecidableEq, Repr

def Outcome.enterPc : Outcome LockPc → Option Pc
  | .goto p => some (.enter p)
  | .ret _ => none

def Outcome.leavePc : Outcome UnlockPc → Option Pc
  | .goto p => some (.leave p)
  | .ret _ => none

namespace LockSystem
variable {T : Type} [DecidableEq T]

/-- A lock and the threads that use it: where each one is, if it is in a lock function, how often its calls
    succeeded, and what the last call returned. -/
structure State (T : Type) where
  lock : Lock T
  pc : T → Option Pc
  locked : T → Nat
  unlocked : T → Nat
  result : T → Int

/-- How often the thread holds the lock. -/
def State.depth (s : State T) (t : T) : Nat := s.locked t - s.unlocked t

def Init (s : State T) : Prop :=
  s.lock = Lock.init T ∧ ∀ t, s.pc t = none ∧ s.locked t = 0 ∧ s.unlocked t = 0

/-- A step of the thread `t`: it calls a lock function, or the function that it is in makes one access. -/
inductive Step (spin : Bool) (ids : Ids T) (t : T) (s : State T) : State T → Prop
  | lock (call : LockCall) (hpc : s.pc t = none) :
      Step spin ids t s { s with pc := Function.update s.pc t (some (.enter (.loadCounter call))) }
  | unlock (hpc : s.pc t = none) :
      Step spin ids t s { s with pc := Function.update s.pc t (some (.leave .loadCounter)) }
  | enter {p : LockPc} {l : Lock T} {o : Outcome LockPc} (hpc : s.pc t = some (.enter p))
      (hadv : lockAdvance spin ids t s.lock p = some (l, o)) :
      Step spin ids t s { s with
        lock := l
        pc := Function.update s.pc t o.enterPc
        locked := Function.update s.locked t (s.locked t + o.successes)
        result := Function.update s.result t (o.result (s.result t)) }
  | leave {p : UnlockPc} {l : Lock T} {o : Outcome UnlockPc} (hpc : s.pc t = some (.leave p))
      (hadv : unlockAdvance spin ids t s.lock p = (l, o)) :
      Step spin ids t s { s with
        lock := l
        pc := Function.update s.pc t o.leavePc
        unlocked := Function.update s.unlocked t (s.unlocked t + o.successes)
        result := Function.update s.result t (o.result (s.result t)) }

/-- A step of some thread. -/
def Next (spin : Bool) (ids : Ids T) (s s' : State T) : Prop := ∃ t, Step spin ids t s s'

/-- The states that the threads reach from a lock of `qp_lock_init`. -/
def Reachable (spin : Bool) (ids : Ids T) : State T → Prop := Trans.Reachable Init (Next spin ids)

end LockSystem

/-! ### Destroying a lock -/

/-- `struct qp_ipc_lock_s` with its flags. -/
structure LockObject (T : Type) where
  lock : Lock T
  isInited : Bool
  isAlloced : Bool
  isShared : Bool
  isSpin : Bool

abbrev EBUSY : Int := 16

section
variable {T : Type} [DecidableEq T] (ids : Ids T) (t : T)

/-- The lock counts and names the thread `t`. -/
def Lock.HeldBy (l : Lock T) : Prop := l.holdCounter ≠ 0 ∧ l.holdThread = ids.thread t ∧ l.holdProcess = ids.process t

instance (l : Lock T) : Decidable (l.HeldBy ids t) := inferInstanceAs (Decidable (_ ∧ _ ∧ _))

/-- `qp_lock_trylock` by `t` as a whole, when no other thread makes an access. -/
def lockTrylock (l : Lock T) : Lock T × Int :=
  if l.HeldBy ids t then ({ l with holdCounter := addWord l.holdCounter 1 }, QP_SUCCESS)
  else if l.taken.isNone then (⟨some t, ids.thread t, ids.process t, addWord l.holdCounter 1⟩, QP_SUCCESS)
  else (l, QP_ERROR)

/-- `qp_lock_unlock` by `t` as a whole. -/
def lockUnlock (spin : Bool) (l : Lock T) : Lock T × Int :=
  if l.holdCounter < 1 then (l, QP_ERROR)
  else if l.holdThread = ids.thread t ∧ l.holdProcess = ids.process t then
    let l := { l with holdCounter := subWord l.holdCounter 1 }
    if l.holdCounter ≠ 0 then (l, QP_SUCCESS)
    else
      let l := { l with holdThread := 0, holdProcess := 0 }
      if spin then if l.taken.isSome then ({ l with taken := none }, QP_SUCCESS) else (l, QP_ERROR)
      else if l.taken = some t then ({ l with taken := none }, QP_SUCCESS)
      else (l, EPERM)
  else (l, QP_ERROR)

/-- `pthread_mutex_destroy`. -/
def mutexDestroy (l : Lock T) : Int := if l.taken.isSome then EBUSY else QP_SUCCESS

/-- `qp_lock_destroy` by `t`. A lock that was allocated is freed. -/
def lockDestroy (o : LockObject T) : Option (LockObject T) × Int :=
  if o.isInited then
    -- incase the lock still locked
    let (l, r) := lockTrylock ids t o.lock
    if EBUSY = r then (some { o with lock := l }, QP_ERROR)
    else
      let (l, _) := lockUnlock ids t o.isSpin l
      if !o.isSpin ∧ QP_SUCCESS ≠ mutexDestroy l then (some { o with lock := l }, QP_ERROR)
      else (if o.isAlloced then none else some ⟨l, false, o.isAlloced, false, false⟩, QP_SUCCESS)
  else (some o, QP_ERROR)

end

end QPHi
