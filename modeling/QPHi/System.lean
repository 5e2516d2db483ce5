import Mathlib.Logic.Function.Basic
import QPHi.Basic

/-! The identity of a process and how it becomes a daemon (`qp_system.c`). What the kernel does for a process is
    modelled with it: its ids, its session and its descriptors; where a system call may fail, whether it does is part
    of the arguments. -/

namespace QPHi

/-! ### Users and groups -/

/-- The real, the effective and the saved id of a process. -/
structure Ids3 where
  real : Nat
  effective : Nat
  saved : Nat
deriving DecidableEq, Repr

def Ids3.all (id : Nat) : Ids3 := ⟨id, id, id⟩

/-- A privileged process gets all three ids. Another one can only make its real or its saved id the effective one. -/
def Ids3.set (privileged : Bool) (id : Nat) (ids : Ids3) : Option Ids3 :=
  if privileged then some (.all id)
  else if id = ids.real ∨ id = ids.saved then some { ids with effective := id }
  else none

structure Credentials where
  uid : Ids3
  gid : Ids3
  groups : List Nat
deriving DecidableEq, Repr

namespace Credentials

/-- The credentials of a process that root has started. -/
def root (groups : List Nat) : Credentials := ⟨.all 0, .all 0, groups⟩

def privileged (c : Credentials) : Bool := c.uid.effective = 0

/-- `setgid`; without `grant` the kernel refuses for a reason of its own. -/
def setgid (grant : Bool) (gid : Nat) (c : Credentials) : Credentials × Int :=
  match c.gid.set c.privileged gid with
  | some ids => if grant then ({ c with gid := ids }, 0) else (c, -1)
  | none => (c, -1)

/-- `setuid`. -/
def setuid (grant : Bool) (uid : Nat) (c : Credentials) : Credentials × Int :=
  match c.uid.set c.privileged uid with
  | some ids => if grant then ({ c with uid := ids }, 0) else (c, -1)
  | none => (c, -1)

/-- `qp_check_root`. -/
def checkRoot (c : Credentials) : Int :=
  let uid := c.uid.real
  let gid := c.gid.real
  if 0 = uid ∧ 0 = gid then QP_SUCCESS else QP_ERROR

/-- `qp_change_user_by_id`, with whether the kernel grants the group and the user. -/
def changeUserById (grantGid grantUid : Bool) (uid gid : Nat) (c : Credentials) : Credentials × Int :=
  if c.checkRoot = 0 then
    if 0 = uid ∧ 0 = gid then (c, QP_ERROR)
    else
      let (c, ret) := c.setgid grantGid gid
      if 0 > ret then (c, QP_ERROR)
      else
        let (c, ret) := c.setuid grantUid uid
        if 0 > ret then (c, QP_ERROR) else (c, QP_SUCCESS)
  else (c, QP_ERROR)

/-- `qp_change_user_by_name`. `getpwnam` finds the ids of a user, or nothing. -/
def changeUserByName (getpwnam : String → Option (Nat × Nat)) (grantGid grantUid : Bool) (uname : String) (c : Credentials) :
    Credentials × Int :=
  match getpwnam uname with
  | some (uid, gid) => c.changeUserById grantGid grantUid uid gid
  | none => (c, QP_ERROR)

end Credentials

/-! ### Daemons -/

def QP_FILENO_MAX : Nat := 65535

/-- A process as `qp_daemonize` finds it. What a descriptor stands for is a path; the limits are those on the number of
    descriptors, and the hard one may be infinite. -/
structure Daemon where
  pid : Nat
  group : Nat
  session : Nat
  mask : Nat
  ignoresHup : Bool
  rootdir : Option String
  workdir : Option String
  files : Nat → Option String
  limit : Nat
  limitMax : Option Nat

/-- How a process leaves `qp_daemonize`. -/
inductive Leave where
  | exited (code : Int)
  | returned (ret : Int)
deriving DecidableEq, Repr

/-- What the system calls answer: the pids of the two new processes, and which of the other calls do not fail. -/
structure DaemonAnswers where
  fork : Option Nat
  forkAgain : Option Nat
  chroot : Bool
  chdir : Bool
  getrlimit : Bool
  opens : Nat → Bool

namespace Daemon

/-- `setsid`, which fails for the leader of a group. -/
def setsid (p : Daemon) : Daemon := if p.group = p.pid then p else { p with session := p.pid, group := p.pid }

def close (p : Daemon) (fd : Nat) : Daemon := { p with files := Function.update p.files fd none }

/-- `open`, which takes the lowest descriptor that is free. -/
def openFile (p : Daemon) (path : String) (grant : Bool) : Daemon :=
  match (List.range p.limit).find? fun fd => (p.files fd).isNone with
  | some fd => if grant then { p with files := Function.update p.files fd (some path) } else p
  | none => p

/-- The loop that closes the descriptors, with `n` of them to go from `i` on. -/
def closeFrom : Nat → Nat → Daemon → Daemon
  | 0, _, p => p
  | n + 1, i, p => closeFrom n (i + 1) (p.close i)

/-- The descriptors from here on are left alone. -/
def closesTo (p : Daemon) : Nat :=
  match p.limitMax with
  | none => QP_FILENO_MAX
  | some n => n

/-- The part of `qp_daemonize` behind the two forks. -/
def settle (k : DaemonAnswers) (holdfd : Bool) (workdir rootdir : Option String) (p : Daemon) : Daemon × Int :=
  -- change root path
  if rootdir.isSome ∧ !k.chroot then (p, QP_ERROR)
  else
    let p := if rootdir.isSome then { p with rootdir := rootdir } else p
    -- change work path
    if workdir.isSome ∧ !k.chdir then (p, QP_ERROR)
    else
      let p := if workdir.isSome then { p with workdir := workdir } else p
      if !k.getrlimit then (p, QP_ERROR)
      else
        let p := closeFrom (p.closesTo - 3) 3 p
        if !holdfd then
          let p := ((p.close 0).close 1).close 2
          let p := p.openFile "/dev/null" (k.opens 0)
          let p := p.openFile "/dev/null" (k.opens 1)
          (p.openFile "/dev/null" (k.opens 2), 1)
        else (p, 1)

/-- `qp_daemonize`: all processes that were in it, and how each of them left it. It answers `true`. -/
def daemonize (k : DaemonAnswers) (bg holdfd : Bool) (workdir rootdir : Option String) (p : Daemon) : List (Daemon × Leave) :=
  let p := { p with mask := 0 }
  if bg then
    match k.fork with
    | none => [(p, .returned QP_ERROR)]
    | some pid =>
      let child := { (setsid { p with pid := pid }) with ignoresHup := true }
      match k.forkAgain with
      | none => [(p, .exited 0), (child, .returned QP_ERROR)]
      | some pid' =>
        let (q, ret) := settle k holdfd workdir rootdir { child with pid := pid' }
        [(p, .exited 0), (child, .exited 0), (q, .returned ret)]
  else
    let (q, ret) := settle k holdfd workdir rootdir p
    [(q, .returned ret)]

end Daemon
end QPHi
