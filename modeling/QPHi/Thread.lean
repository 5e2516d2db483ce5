import Mathlib.Logic.Function.Basic
import QPHi.Basic
import QPHi.Lib.Trans

/-! The threads of `qp_process.c`: the owner of a thread structure and the threads that it makes, one access to the
    structure at a time. -/

namespace QPHi

abbrev QP_THREAD_INVALID : Nat := 0
abbrev QP_CPUID_INVALID : Int := -1

/-- `struct qp_thread_s`, with the fields of its handler. -/
structure Thread where
  tid : Nat
  cid : Int
  handlerPtr : Ptr
  argsPtr : Ptr
  ret : Ptr
  isInited : Bool
  isAlloced : Bool
  isDetach : Bool
  isRunning : Bool
deriving DecidableEq, Repr

/-- The structure after `memset`. -/
def Thread.zero : Thread := ⟨0, 0, NULL, NULL, NULL, false, false, false, false⟩

/-- `qp_thread_create`; `alloced` says whether `qp_alloc` finds room. -/
def threadCreate (thread : Option Thread) (alloced : Bool) : Option Thread :=
  match thread with
  | none =>
    if alloced then
      some { Thread.zero with isAlloced := true, tid := QP_THREAD_INVALID, cid := QP_CPUID_INVALID, isInited := true }
    else none
  | some _ => some { Thread.zero with tid := QP_THREAD_INVALID, cid := QP_CPUID_INVALID, isInited := true }

def threadInit (thread : Option Thread) (detach alloced : Bool) : Option Thread :=
  (threadCreate thread alloced).map fun thread => if detach then { thread with isDetach := true } else thread

namespace ThreadSystem

/-! ### The new thread -/

/-- The points of `qp_thread_runner`. The handler is called at `call`, and runs at `handling`. -/
inductive RunnerPc where
  | checkSelf
  | readDetach
  | detach
  | unsetDetach
  | setRunning
  | affinityTid
  | affinityCid
  | readHandler
  | loadHandler
  | loadArgs (handler : Ptr)
  | call (handler args : Ptr)
  | handling
  | storeRet (ret : Ptr)
  | unsetRunning
  | exit
  | ended
deriving DecidableEq, Repr

/-- The next step reads or writes the structure. -/
def RunnerPc.Touches : RunnerPc → Prop
  | .call _ _ | .handling | .exit | .ended => False
  | _ => True

/-- A thread that `pthread_create` made: where it is, what its start gave it, the calls of handlers that it has made, and
    whether it was detached or joined. -/
structure Runner where
  pc : RunnerPc
  handler : Ptr
  args : Ptr
  calls : List (Ptr × Ptr)
  detached : Bool
  joined : Bool
deriving DecidableEq, Repr

def Runner.Joinable (r : Runner) : Prop := r.detached = false ∧ r.joined = false

instance (r : Runner) : Decidable r.Joinable := inferInstanceAs (Decidable (_ ∧ _))

/-- One access of `qp_thread_runner` by the thread `self`. `detached` is whether `pthread_detach` succeeds, and `ret` is what
    the handler returns. -/
def runnerAdvance (self : Nat) (detached : Bool) (ret : Ptr) (t : Thread) (r : Runner) : Thread × Runner :=
  match r.pc with
  | .checkSelf => (t, { r with pc := if t.tid ≠ self then .unsetRunning else .readDetach })
  | .readDetach => (t, { r with pc := if t.isDetach then .detach else .setRunning })
  | .detach => (t, { r with pc := if detached then .setRunning else .unsetDetach })
  | .unsetDetach => ({ t with isDetach := false }, { r with pc := .setRunning })
  | .setRunning => ({ t with isRunning := true }, { r with pc := .affinityTid })
  -- set cpu affinity if needed
  | .affinityTid => (t, { r with pc := .affinityCid })
  | .affinityCid => (t, { r with pc := .readHandler })
  | .readHandler => (t, { r with pc := if t.handlerPtr ≠ NULL then .loadHandler else .unsetRunning })
  | .loadHandler => (t, { r with pc := .loadArgs t.handlerPtr })
  | .loadArgs handler => (t, { r with pc := .call handler t.argsPtr })
  | .call handler args => (t, { r with pc := .handling, calls := r.calls ++ [(handler, args)] })
  | .handling => (t, { r with pc := .storeRet ret })
  | .storeRet ret => ({ t with ret := ret }, { r with pc := .unsetRunning })
  | .unsetRunning => ({ t with isRunning := false }, { r with pc := .exit })
  | .exit => (t, { r with pc := .ended })
  | .ended => (t, r)

/-! ### The owner -/

inductive StartPc where
  | readInited
  | setHandler
  | setArgs
  | create
  | storeTid (tid : Nat)
  | clearTid
  | clearHandler
  | clearArgs
deriving DecidableEq, Repr

inductive StopPc where
  | readInited
  | readDetach
  | join
  | readRunning
  | clearTid
deriving DecidableEq, Repr

inductive DestroyPc where
  | readInited
  | readRunning
  | unsetInited
  | readAlloced
deriving DecidableEq, Repr

/-- Where the owner is: in one of its functions, `qp_thread_stop` possibly within `qp_thread_destroy`. -/
inductive OwnerPc where
  | start (p : StartPc) (handler args : Ptr)
  | stop (p : StopPc) (destroying : Bool)
  | destroy (p : DestroyPc)
deriving DecidableEq, Repr

/-- A structure, its owner with what the last call returned, and the threads by their `pthread_t`. `destroyed` is set when
    `qp_thread_destroy` returns success; the memory is free then if it `is_alloced`. -/
structure State where
  thread : Thread
  owner : Option OwnerPc
  result : Int
  destroyed : Bool
  runners : Nat → Option Runner

def State.goto (s : State) (p : OwnerPc) : State := { s with owner := some p }

def State.ret (s : State) (r : Int) : State := { s with owner := none, result := r }

/-- A `pthread_t` that a new thread may get. -/
def State.Unused (s : State) (tid : Nat) : Prop :=
  tid ≠ QP_THREAD_INVALID ∧ ∀ r ∈ s.runners tid, r.pc = .ended ∧ ¬r.Joinable

instance (s : State) (tid : Nat) : Decidable (s.Unused tid) := inferInstanceAs (Decidable (_ ∧ _))

/-- One access of `qp_thread_start`. `created` is the thread that `pthread_create` makes, if it does. -/
def startAdvance (s : State) (created : Option Nat) (handler args : Ptr) : StartPc → Option State
  | .readInited => some (if s.thread.isInited then s.goto (.start .setHandler handler args) else s.ret QP_ERROR)
  | .setHandler => some ({ s with thread := { s.thread with handlerPtr := handler } }.goto (.start .setArgs handler args))
  | .setArgs => some ({ s with thread := { s.thread with argsPtr := args } }.goto (.start .create handler args))
  | .create =>
    match created with
    | none => some (s.goto (.start .clearTid handler args))
    | some tid =>
      if s.Unused tid then
        let runners := Function.update s.runners tid (some ⟨.checkSelf, handler, args, [], false, false⟩)
        some ({ s with runners := runners }.goto (.start (.storeTid tid) handler args))
      else none
  | .storeTid tid => some ({ s with thread := { s.thread with tid := tid } }.ret QP_SUCCESS)
  | .clearTid =>
    some ({ s with thread := { s.thread with tid := QP_THREAD_INVALID } }.goto (.start .clearHandler handler args))
  | .clearHandler => some ({ s with thread := { s.thread with handlerPtr := NULL } }.goto (.start .clearArgs handler args))
  | .clearArgs => some ({ s with thread := { s.thread with argsPtr := NULL } }.ret QP_ERROR)

/-- One access of `qp_thread_stop`; `none` while `pthread_join` waits. A thread that cannot be joined is not waited for. -/
def stopAdvance (s : State) (destroying : Bool) : StopPc → Option State
  | .readInited => some (if s.thread.isInited then s.goto (.stop .readDetach destroying) else s.ret QP_ERROR)
  | .readDetach => some (s.goto (.stop (if !s.thread.isDetach then .join else .readRunning) destroying))
  | .join =>
    match s.runners s.thread.tid with
    | none => some (s.goto (.stop .clearTid destroying))
    | some r =>
      if r.Joinable then
        if r.pc = .ended then
          let runners := Function.update s.runners s.thread.tid (some { r with joined := true })
          some ({ s with runners := runners }.goto (.stop .clearTid destroying))
        else none
      else some (s.goto (.stop .clearTid destroying))
  | .readRunning => some (if s.thread.isRunning then s.ret QP_ERROR else s.goto (.stop .clearTid destroying))
  | .clearTid =>
    let s := { s with thread := { s.thread with tid := QP_THREAD_INVALID } }
    some (if destroying then s.goto (.destroy .unsetInited) else s.ret QP_SUCCESS)

/-- One access of `qp_thread_destroy` itself. -/
def destroyAdvance (s : State) : DestroyPc → State
  | .readInited => if s.thread.isInited then s.goto (.destroy .readRunning) else s.ret QP_ERROR
  | .readRunning => s.goto (if s.thread.isRunning then .stop .readInited true else .destroy .unsetInited)
  | .unsetInited => { s with thread := { s.thread with isInited := false } }.goto (.destroy .readAlloced)
  | .readAlloced => { s with destroyed := true }.ret QP_SUCCESS

/-! ### Steps -/

inductive Call where
  | start (handler args : Ptr)
  | stop
  | destroy
deriving DecidableEq, Repr

/-- The owner calls a function or goes on in it, or a new thread makes its next access. -/
inductive Label where
  | call (c : Call)
  | owner (created : Option Nat)
  | runner (self : Nat) (detached : Bool) (ret : Ptr)
deriving DecidableEq, Repr

def Call.pc : Call → OwnerPc
  | .start handler args => .start .readInited handler args
  | .stop => .stop .readInited false
  | .destroy => .destroy .readInited

/-- `pthread_detach` of a thread that is joinable. -/
def State.detach (s : State) (tid : Nat) : Option State :=
  match s.runners tid with
  | none => none
  | some r =>
    if r.Joinable then some { s with runners := Function.update s.runners tid (some { r with detached := true }) }
    else none

/-- The thread `self` makes its next access, and the structure and its record are changed. -/
def State.advance (s : State) (self : Nat) (detached : Bool) (ret : Ptr) : Option State :=
  match s.runners self with
  | none => none
  | some r =>
    let (t, r) := runnerAdvance self detached ret s.thread r
    some { s with thread := t, runners := Function.update s.runners self (some r) }

/-- The state after a step, if the step is possible. -/
def step (s : State) : Label → Option State
  | .call c =>
    match s.owner with
    | none => if s.destroyed ∧ s.thread.isAlloced then none else some (s.goto c.pc)
    | some _ => none
  | .owner created =>
    match s.owner with
    | none => none
    | some (.start p handler args) => startAdvance s created handler args p
    | some (.stop p destroying) => stopAdvance s destroying p
    | some (.destroy p) => some (destroyAdvance s p)
  | .runner self detached ret =>
    match s.runners self with
    | none => none
    | some r =>
      if r.pc = .ended then none
      else if r.pc = .detach ∧ detached then (s.detach s.thread.tid).bind fun s => s.advance self detached ret
      else s.advance self detached ret

/-- A structure of `qp_thread_init`, before anything was called for it. -/
def Init (s : State) : Prop :=
  ∃ thread detach alloced, threadInit thread detach alloced = some s.thread ∧ s.owner = none ∧ s.destroyed = false ∧
    ∀ tid, s.runners tid = none

/-- A step that is allowed where it is taken. -/
def Next (allowed : State → Label → Prop) (s s' : State) : Prop := ∃ a, allowed s a ∧ step s a = some s'

/-- The states of the runs whose steps are all allowed. -/
def Reachable (allowed : State → Label → Prop) : State → Prop := Trans.Reachable Init (Next allowed)

end ThreadSystem

end QPHi
