import QPHi.Basic
import QPHi.Lib.Trans

/-! The process control of `qp_process.c`: one process structure and the system calls that are made for it. -/

namespace QPHi

abbrev SIGKILL : Int := 9

/-- `qp_process_type_t`. -/
inductive ProcessType where
  | unknow
  | fork
  | exec
  | forkExec
  | clone
deriving DecidableEq, Repr

abbrev QP_PROCESS_INVALID : Int := 0
abbrev QP_PROCESS_STACK_SIZE : Nat := 8388608

/-- What `fork`, `vfork` and `clone` come to: a failure, the new process as its parent sees it, or that process
    itself. -/
inductive Spawn where
  | failed
  | parent (pid : { pid : Int // 0 < pid })
  | child
deriving DecidableEq, Repr

/-- The system calls, with the results that matter later. The flags of `clone` are those without `SIGCHLD`. -/
inductive SysCall where
  | fork (spawn : Spawn)
  | vfork (spawn : Spawn)
  | clone (fn stack : Ptr) (flag : Int) (arg : Ptr) (spawn : Spawn)
  | execv (argv : Ptr)
  | kill (pid sig : Int)
  | waitpid (pid : Int)
deriving DecidableEq, Repr

/-- `struct qp_process_s`, with the fields of its handler. -/
structure Process where
  pid : Int
  stackSize : Nat
  argsPtr : Ptr
  handlerPtr : Ptr
  argv : Ptr
  flag : Int
  type : ProcessType
  stack : Ptr
  isInited : Bool
  isAlloced : Bool
  isRunning : Bool
deriving DecidableEq, Repr

/-- The structure after `memset`. -/
def Process.zero : Process := ⟨0, 0, NULL, NULL, NULL, 0, .unknow, NULL, false, false, false⟩

/-- The calls of one function, the structure that is left (none when it was freed, or when this process does not run
    the caller's code any more), and the return value. -/
abbrev Answer := List SysCall × Option Process × Int

/-! ### Setting up -/

/-- `qp_process_create`; `alloced` says whether `qp_alloc` finds room. -/
def processCreate (process : Option Process) (alloced : Bool) : Option Process :=
  match process with
  | none =>
    if alloced then
      some { Process.zero with isAlloced := true, pid := QP_PROCESS_INVALID, type := .unknow, isInited := true }
    else none
  | some _ => some { Process.zero with pid := QP_PROCESS_INVALID, type := .unknow, isInited := true }

def processInit (process : Option Process) (alloced : Bool) : Option Process :=
  (processCreate process alloced).map fun process => { process with type := .fork }

/-- `qp_process_set_exec` and `qp_process_set_vfork_exec`; `argv0` is `argv[0]`. -/
def Process.setArgv (process : Process) (type : ProcessType) (argv argv0 : Ptr) : Answer :=
  if process.isInited ∧ argv ≠ NULL ∧ argv0 ≠ NULL then
    ([], some { process with argv := argv, type := type }, QP_SUCCESS)
  else ([], some process, QP_ERROR)

def Process.setExec (process : Process) (argv argv0 : Ptr) : Answer := process.setArgv .exec argv argv0

def Process.setVforkExec (process : Process) (argv argv0 : Ptr) : Answer := process.setArgv .forkExec argv argv0

def Process.setClone (process : Process) (flag : Int) (fn arg : Ptr) (stackSize : Nat) : Answer :=
  if process.isInited ∧ fn ≠ NULL then
    ([], some { process with flag := flag, stackSize := stackSize, argsPtr := arg, handlerPtr := fn, type := .clone }, QP_SUCCESS)
  else ([], some process, QP_ERROR)

/-! ### Starting -/

/-- The pid that is stored when the call returns, and the rest of the parent's side. -/
def Process.spawned (process : Process) : Spawn → Option Process × Int
  | .failed => (some { process with pid := -1 }, QP_ERROR)
  | .parent pid => (some { process with pid := pid, isRunning := true }, pid)
  | .child => (some { process with pid := 0 }, 0)

/-- The stack of a `clone`, in place of the one of the last time. -/
def Process.replaceStack (process : Process) (stack : Ptr) : Process :=
  { process with
    stackSize := if process.stackSize = 0 then QP_PROCESS_STACK_SIZE else process.stackSize
    stack := stack }

/-- `qp_process_start`. `execed` says whether `execv` succeeds, and `stack` is the block that `qp_alloc` finds. -/
def Process.start (process : Process) (execed : Bool) (stack : Ptr) (spawn : Spawn) : Answer :=
  if process.isInited then
    match process.type with
    | .fork => ([.fork spawn], process.spawned spawn)
    | .exec =>
      if process.argv = NULL then ([], some process, QP_ERROR)
      else ([.execv process.argv], if execed then none else some process, QP_ERROR)
    | .forkExec =>
      if process.argv = NULL then ([], some process, QP_ERROR)
      else
        match spawn with
        -- The child becomes another program, or exits.
        | .child => ([.vfork spawn, .execv process.argv], none, 0)
        | spawn => ([.vfork spawn], process.spawned spawn)
    | .clone =>
      let process := process.replaceStack stack
      if stack = NULL then ([], some process, QP_ERROR)
      else
        let call := .clone process.handlerPtr (stack + process.stackSize) process.flag process.argsPtr spawn
        match spawn with
        -- The child runs the handler, on a copy that was made before the pid is stored.
        | .child => ([call], some process, 0)
        | spawn => ([call], process.spawned spawn)
    | .unknow => ([], some process, QP_ERROR)
  else ([], some process, QP_ERROR)

/-! ### Stopping -/

/-- `qp_process_kill`; `killed` is the result of `kill`. -/
def Process.kill (process : Process) (sig killed : Int) : List SysCall × Int :=
  if process.isRunning then ([.kill process.pid sig], if killed = QP_ERROR then QP_ERROR else QP_SUCCESS)
  else ([], QP_ERROR)

/-- The part of `qp_process_stop` for a running process. Whatever `waitpid` returns, the process is not running after
    it. -/
def Process.wait (process : Process) : List SysCall × Process :=
  ([.waitpid process.pid], { process with isRunning := false, pid := QP_PROCESS_INVALID })

/-- `qp_process_stop`. -/
def Process.stop (process : Process) (force : Bool) (killed : Int) : List SysCall × Process × Int :=
  if process.isInited then
    if process.isRunning then
      if force then
        let (calls, r) := process.kill SIGKILL killed
        if r = QP_ERROR then (calls, process, QP_ERROR)
        else (calls ++ process.wait.1, process.wait.2, QP_SUCCESS)
      else (process.wait.1, process.wait.2, QP_SUCCESS)
    else ([], { process with pid := QP_PROCESS_INVALID }, QP_SUCCESS)
  else ([], process, QP_ERROR)

/-- `qp_process_destroy`. -/
def Process.destroy (process : Process) (killed : Int) : Answer :=
  if process.isInited then
    let (calls, process) := if process.isRunning then
        let (calls, process, _) := process.stop true killed
        (calls, process)
      else ([], process)
    let process := { process with stack := NULL, pid := QP_PROCESS_INVALID, type := .unknow, isInited := false }
    (calls, if process.isAlloced then none else some process, QP_SUCCESS)
  else ([], some process, QP_ERROR)

/-! ### Runs -/

/-- The functions on one structure, with what the system answers to their calls. -/
inductive ProcessOp where
  | init (alloced : Bool)
  | setExec (argv argv0 : Ptr)
  | setVforkExec (argv argv0 : Ptr)
  | setClone (flag : Int) (fn arg : Ptr) (stackSize : Nat)
  | start (execed : Bool) (stack : Ptr) (spawn : Spawn)
  | stop (force : Bool) (killed : Int)
  | kill (sig killed : Int)
  | destroy (killed : Int)
deriving DecidableEq, Repr

/-- Without a structure, every function but `qp_process_init` fails. -/
def ProcessOp.run : ProcessOp → Option Process → Answer
  | .init alloced, process => ([], processInit process alloced, QP_SUCCESS)
  | .setExec argv argv0, some process => process.setExec argv argv0
  | .setVforkExec argv argv0, some process => process.setVforkExec argv argv0
  | .setClone flag fn arg stackSize, some process => process.setClone flag fn arg stackSize
  | .start execed stack spawn, some process => process.start execed stack spawn
  | .stop force killed, some process =>
    let (calls, process, r) := process.stop force killed
    (calls, some process, r)
  | .kill sig killed, some process =>
    let (calls, r) := process.kill sig killed
    (calls, some process, r)
  | .destroy killed, some process => process.destroy killed
  | _, none => ([], none, QP_ERROR)

/-- A structure, and the calls that were made for it so far. -/
structure ProcessState where
  process : Option Process
  history : List SysCall
deriving DecidableEq, Repr

def ProcessState.step (s : ProcessState) (op : ProcessOp) : ProcessState where
  process := (op.run s.process).2.1
  history := s.history ++ (op.run s.process).1

/-- Runs in which every operation meets `ok` in the state before it. A run starts with `qp_process_init`, of a structure
    with any contents or of none. On the child's side of a `fork` or `clone` it goes on with the child's copy. -/
def ProcessState.Reachable (ok : ProcessOp → Option Process → Prop) : ProcessState → Prop :=
  Trans.Reachable (fun s => ∃ process alloced, s = ⟨processInit process alloced, []⟩)
    fun s s' => ∃ op, ok op s.process ∧ s' = s.step op

end QPHi
