import QPHi.Lock

/-! `qp_cond_signal` and `qp_cond_wait` of `core/qp_ipc_core.c`, one access at a time, over a lock that is a
    parameter: the re-entrant lock of the source, or a mutex without fields of its own. -/

namespace QPHi

/-- A lock as the conditions use it: its functions, and the mutex in it that `pthread_cond_wait` is given. -/
structure LockModel (T : Type) where
  Fields : Type
  Enter : Type
  Leave : Type
  init : Fields
  mutex : Fields → Option T
  setMutex : Fields → Option T → Fields
  lock : Enter
  unlock : Leave
  lockAdvance : T → Fields → Enter → Option (Fields × Outcome Enter)
  unlockAdvance : T → Fields → Leave → Fields × Outcome Leave

section
variable {T : Type} [DecidableEq T]

/-- `cond_lock` as `qp_cond_init` makes it: a lock with a mutex. -/
def LockModel.reentrant (ids : Ids T) : LockModel T where
  Fields := Lock T
  Enter := LockPc
  Leave := UnlockPc
  init := Lock.init T
  mutex := Lock.taken
  setMutex l o := { l with taken := o }
  lock := .loadCounter .lock
  unlock := .loadCounter
  lockAdvance := QPHi.lockAdvance false ids
  unlockAdvance := QPHi.unlockAdvance false ids

/-- A mutex and nothing else. -/
def LockModel.ideal (T : Type) [DecidableEq T] : LockModel T where
  Fields := Option T
  Enter := Unit
  Leave := Unit
  init := none
  mutex l := l
  setMutex _ o := o
  lock := ()
  unlock := ()
  lockAdvance t l _ := if l = none then some (some t, .ret QP_SUCCESS) else none
  unlockAdvance t l _ := if l = some t then (none, .ret QP_SUCCESS) else (l, .ret EPERM)

end

/-- The points of `qp_cond_signal` and `qp_cond_wait`. A thread in `pthread_cond_wait` is asleep, or woken and
    has not got the mutex back. -/
inductive CondPc {T : Type} (M : LockModel T) where
  | idle
  | signalLock (p : M.Enter)
  | signalTest
  | signalLoad (stat : Bool)
  | signalStore (stat : Bool) (n : Nat)
  | signalUnlock (stat : Bool) (p : M.Leave)
  | signalSend
  | waitLock (p : M.Enter)
  | waitTest
  | waitSleep
  | asleep
  | woken
  | waitLoad
  | waitStore (n : Nat)
  | waitUnlock (failed : Bool) (p : M.Leave)

namespace CondSystem
variable {T : Type}

/-- A condition and the threads that use it, with what the last call of each returned. -/
structure State (M : LockModel T) where
  condLock : M.Fields
  nready : Nat
  pc : T → CondPc M
  result : T → Int

def Init {M : LockModel T} (s : State M) : Prop :=
  s.condLock = M.init ∧ s.nready = 0 ∧ ∀ t, s.pc t = .idle

/-- A condition that nobody has used yet. -/
def start (M : LockModel T) : State M := ⟨M.init, 0, fun _ => .idle, fun _ => 0⟩

theorem start_init (M : LockModel T) : Init (start M) := ⟨rfl, rfl, fun _ => rfl⟩

variable (M : LockModel T)

/-- The functions go on with what follows the lock, whatever the lock returned. -/
def signalLocked : Outcome M.Enter → CondPc M
  | .goto p => .signalLock p
  | .ret _ => .signalTest

def waitLocked : Outcome M.Enter → CondPc M
  | .goto p => .waitLock p
  | .ret _ => .waitTest

def signalUnlocked (stat : Bool) : Outcome M.Leave → CondPc M
  | .goto p => .signalUnlock stat p
  | .ret _ => if stat then .signalSend else .idle

def waitUnlocked (failed : Bool) : Outcome M.Leave → CondPc M
  | .goto p => .waitUnlock failed p
  | .ret _ => .idle

/-- What the unlock at the end of a function returned is the result of `qp_cond_wait`. -/
def waitResult (failed : Bool) (last : Int) : Outcome M.Leave → Int
  | .goto _ => last
  | .ret r => if failed then QP_ERROR else r

def signalResult (stat : Bool) (last : Int) : Outcome M.Leave → Int
  | .goto _ => last
  | .ret _ => if stat then last else QP_SUCCESS

/-- `pthread_cond_signal` wakes at least one thread that is asleep, if there is one. -/
def Wakes {M : LockModel T} (t : T) (pc pc' : T → CondPc M) : Prop :=
  pc' t = .idle ∧ (∀ u ≠ t, pc' u = pc u ∨ pc u = .asleep ∧ pc' u = .woken) ∧
    ((∃ u, pc u = .asleep) → ∃ u, pc u = .asleep ∧ pc' u = .woken)

variable [DecidableEq T]

/-- A step of the thread `t`. `pthread_cond_wait` gives the mutex up as it falls asleep, or it fails before it
    does anything; it may return without a signal. -/
inductive Step (t : T) (s : State M) : State M → Prop
  | signal (hpc : s.pc t = .idle) : Step t s { s with pc := Function.update s.pc t (.signalLock M.lock) }
  | wait (hpc : s.pc t = .idle) : Step t s { s with pc := Function.update s.pc t (.waitLock M.lock) }
  | signalLock {p : M.Enter} {l : M.Fields} {o : Outcome M.Enter} (hpc : s.pc t = .signalLock p)
      (hadv : M.lockAdvance t s.condLock p = some (l, o)) :
      Step t s { s with condLock := l, pc := Function.update s.pc t (signalLocked M o) }
  | signalTest (hpc : s.pc t = .signalTest) :
      Step t s { s with pc := Function.update s.pc t (.signalLoad (decide (0 = s.nready))) }
  | signalLoad {stat : Bool} (hpc : s.pc t = .signalLoad stat) :
      Step t s { s with pc := Function.update s.pc t (.signalStore stat s.nready) }
  | signalStore {stat : Bool} {n : Nat} (hpc : s.pc t = .signalStore stat n) :
      Step t s { s with nready := (n + 1) % 2 ^ 32, pc := Function.update s.pc t (.signalUnlock stat M.unlock) }
  | signalUnlock {stat : Bool} {p : M.Leave} {l : M.Fields} {o : Outcome M.Leave} (hpc : s.pc t = .signalUnlock stat p)
      (hadv : M.unlockAdvance t s.condLock p = (l, o)) :
      Step t s { s with
        condLock := l
        pc := Function.update s.pc t (signalUnlocked M stat o)
        result := Function.update s.result t (signalResult M stat (s.result t) o) }
  | signalSend {pc : T → CondPc M} (hpc : s.pc t = .signalSend) (hwakes : Wakes t s.pc pc) :
      Step t s { s with pc := pc, result := Function.update s.result t QP_SUCCESS }
  | waitLock {p : M.Enter} {l : M.Fields} {o : Outcome M.Enter} (hpc : s.pc t = .waitLock p)
      (hadv : M.lockAdvance t s.condLock p = some (l, o)) :
      Step t s { s with condLock := l, pc := Function.update s.pc t (waitLocked M o) }
  | waitTest (hpc : s.pc t = .waitTest) :
      Step t s { s with pc := Function.update s.pc t (if 0 = s.nready then .waitSleep else .waitLoad) }
  | waitSleep (hpc : s.pc t = .waitSleep) (htaken : M.mutex s.condLock = some t) :
      Step t s { s with condLock := M.setMutex s.condLock none, pc := Function.update s.pc t .asleep }
  | waitFail (hpc : s.pc t = .waitSleep) :
      Step t s { s with pc := Function.update s.pc t (.waitUnlock true M.unlock) }
  | spurious (hpc : s.pc t = .asleep) : Step t s { s with pc := Function.update s.pc t .woken }
  | woken (hpc : s.pc t = .woken) (hfree : M.mutex s.condLock = none) :
      Step t s { s with condLock := M.setMutex s.condLock (some t), pc := Function.update s.pc t .waitTest }
  | waitLoad (hpc : s.pc t = .waitLoad) : Step t s { s with pc := Function.update s.pc t (.waitStore s.nready) }
  | waitStore {n : Nat} (hpc : s.pc t = .waitStore n) :
      Step t s { s with
        nready := (n + 2 ^ 32 - 1) % 2 ^ 32
        pc := Function.update s.pc t (.waitUnlock false M.unlock) }
  | waitUnlock {failed : Bool} {p : M.Leave} {l : M.Fields} {o : Outcome M.Leave}
      (hpc : s.pc t = .waitUnlock failed p) (hadv : M.unlockAdvance t s.condLock p = (l, o)) :
      Step t s { s with
        condLock := l
        pc := Function.update s.pc t (waitUnlocked M failed o)
        result := Function.update s.result t (waitResult M failed (s.result t) o) }

/-- The states reached by runs in which the thread and the state before each step satisfy `P`. -/
def ReachableBy (P : T → State M → Prop) : State M → Prop :=
  Trans.Reachable Init fun s s' => ∃ t, P t s ∧ Step M t s s'

/-- The states of every run. -/
def Reachable : State M → Prop := ReachableBy M fun _ _ => True

end CondSystem

end QPHi
