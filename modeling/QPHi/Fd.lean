import QPHi.Heap
import QPHi.Lib.Buffer
import QPHi.Lib.Command

/-! The full transfers of `core/qp_io_core.c`: `qp_fd_writen` and `qp_fd_readn` call `write` and `read` until all bytes are
    through. What the system calls answer is a script; a call for which the script has nothing does not return. -/

namespace QPHi
open Buffer Command

/-- The values of `errno` that the loops tell apart. -/
inductive Errno where
  | eintr
  | eagain
  | ewouldblock
  | other (n : Nat)
deriving DecidableEq, Repr

/-- The answer of a system call: the bytes that it could transfer, or a failure. -/
inductive FdAnswer where
  | count (n : Nat)
  | failure (errno : Errno)
deriving DecidableEq, Repr

/-- A call of `read` or `write` that was made. -/
structure FdCall where
  request : Nat
  result : Int
  errno : Errno
deriving DecidableEq, Repr

/-- `struct qp_fd_s` and what is behind it: the script, the calls so far with the last one first, the bytes that the
    descriptor has accepted, the bytes that come in from it and how many of them were obtained, and the memory. -/
structure Fd where
  script : List FdAnswer
  calls : List FdCall
  accepted : List UInt8
  incoming : Nat → UInt8
  obtained : Nat
  memory : Nat → UInt8

/-- A `size_t`. -/
abbrev Size := Fin (2 ^ 64)

/-- The most bytes that one `read` or `write` transfers. -/
def transferMax : Nat := 0x7ffff000

namespace Fd

/-- The next call takes its answer from the script. It transfers at most what was asked for. -/
def sysCall (request : Nat) : Cmd Fd FdCall := fun fd =>
  match fd.script with
  | [] => .error .fuel
  | answer :: script =>
    let call : FdCall :=
      match answer with
      | .count n => ⟨request, (min n (min request transferMax) : Nat), .other 0⟩
      | .failure errno => ⟨request, -1, errno⟩
    .ok (call, { fd with script := script, calls := call :: fd.calls })

/-- `write`. -/
def sysWrite (buf request : Nat) : Cmd Fd FdCall := do
  let call ← sysCall request
  modify fun fd => { fd with accepted := fd.accepted ++ slice fd.memory buf call.result.toNat }
  return call

/-- `read`. -/
def sysRead (buf request : Nat) : Cmd Fd FdCall := do
  let call ← sysCall request
  modify fun fd => { fd with
    memory := store fd.memory buf call.result.toNat fun i => fd.incoming (fd.obtained + i)
    obtained := fd.obtained + call.result.toNat }
  return call

/-- `errno` asks to try again. -/
def again (errno : Errno) : Bool := errno = .eintr ∨ errno = .eagain ∨ errno = .ewouldblock

/-- A round of the two loops: `ndone` bytes are through, the next ones are at `vptr`, and the loop goes on as long as
    `goes` says so. The result of the system call is kept in an `int`. -/
def transferRound (sys : Nat → Nat → Cmd Fd FdCall) (goes : Nat → Bool) (nbytes : Nat) : Nat × Nat → Cmd Fd (Next (Nat × Nat) Nat)
  | (vptr, ndone) =>
    if goes ndone then do
      let call ← sys vptr (subWord nbytes ndone)
      let ret := call.result.bmod (2 ^ 32)
      if 1 > ret then
        if ret < 0 ∧ again call.errno then return .again (vptr, ndone)
        else return .done ndone -- error or peer connection closed (EOF)
      else return .again (vptr + ret.toNat, addWord ndone ret.toNat)
    else return .done ndone

/-- `qp_fd_writen`. -/
def fdWriten (fuel vptr : Nat) (nbytes : Size) : Cmd Fd Nat :=
  loop (transferRound sysWrite (fun ndone => ndone < nbytes.1) nbytes) fuel (vptr, 0)

/-- `qp_fd_readn`. -/
def fdReadn (fuel vptr : Nat) (nbytes : Size) : Cmd Fd Nat :=
  loop (transferRound sysRead (fun _ => 0 < nbytes.1) nbytes) fuel (vptr, 0)

end Fd

end QPHi
