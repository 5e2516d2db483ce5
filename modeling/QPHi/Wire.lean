import QPHi.Fd
import QPHi.Lib.Trans

/-! Two processes at the ends of a stream: one sends with `qp_socket_sendn`, which is `qp_fd_writen`, and the other receives
    with `qp_socket_recvn`, which is `qp_fd_readn`. Each makes one system call at a time, in any order, and the kernel keeps
    the bytes that are on their way, up to a capacity. -/

namespace QPHi
open Buffer Command

/-- A call in progress: its arguments, the `vptr` and `ndone` of its loop, and for the record the descriptor that it began
    with and the answers that it got. -/
structure Transfer where
  vptr : Nat
  nbytes : Size
  state : Nat × Nat
  start : Fd
  answers : List FdAnswer

/-- A call that has returned: the call with the answers of all its rounds, the bytes it was to send or has stored, its
    result, and the descriptor as it left it. -/
structure Report extends Transfer where
  bytes : List UInt8
  result : Nat
  finish : Fd

/-- What the call has put on the stream, or taken from it. -/
def Report.moved (r : Report) : List UInt8 := r.bytes.take r.result

/-- The call after a round that got `answers`. -/
def Transfer.onward (t : Transfer) (answers : List FdAnswer) (state : Nat × Nat) : Transfer :=
  { t with state := state, answers := t.answers ++ answers }

/-- What a call has to show when its last round, which got `answers`, has left the result `r` and the descriptor `fd`. -/
def Transfer.report (t : Transfer) (answers : List FdAnswer) (bytes : List UInt8) (r : Nat) (fd : Fd) : Report where
  toTransfer := t.onward answers t.state
  bytes := bytes
  result := r
  finish := fd

/-- The two descriptors, the calls in progress, and those that have returned. -/
structure Wire where
  sender : Fd
  receiver : Fd
  sending : Option Transfer
  receiving : Option Transfer
  sent : List Report
  received : List Report

namespace Wire

/-- A call that begins. -/
def begin (fd : Fd) (vptr : Nat) (nbytes : Size) : Transfer := ⟨vptr, nbytes, (vptr, 0), fd, []⟩

/-- The rounds of `qp_fd_writen` and of `qp_fd_readn`. -/
def writenRound (nbytes : Size) : Nat × Nat → Cmd Fd (Next (Nat × Nat) Nat) :=
  Fd.transferRound Fd.sysWrite (fun ndone => ndone < nbytes.1) nbytes

def readnRound (nbytes : Size) : Nat × Nat → Cmd Fd (Next (Nat × Nat) Nat) :=
  Fd.transferRound Fd.sysRead (fun _ => 0 < nbytes.1) nbytes

/-- What the receiver reads: the bytes that the sender has put on the stream. -/
def stream (s : Wire) : Nat → UInt8 := fun i => s.sender.accepted.getD i 0

/-- The sender and the receiver as they make a round that is answered with `answers`. -/
def asksSend (s : Wire) (answers : List FdAnswer) : Fd := { s.sender with script := answers }

def asksRecv (s : Wire) (answers : List FdAnswer) : Fd := { s.receiver with script := answers, incoming := s.stream }

def sentReport (s : Wire) (t : Transfer) (answers : List FdAnswer) (r : Nat) (fd : Fd) : Report :=
  t.report answers (slice s.sender.memory t.vptr t.nbytes.1) r fd

def receivedReport (t : Transfer) (answers : List FdAnswer) (r : Nat) (fd : Fd) : Report :=
  t.report answers (slice fd.memory t.vptr r) r fd

/-- One step of one of the two processes: it calls its function with memory of its own, or makes a round of the loop of the
    function. The answers of a round are the ones that it used, so there is one if it makes a system call and none if it makes
    none. The kernel takes no more than it has room for, and gives no more than there is; otherwise it answers as it likes. -/
inductive Step (capacity : Nat) (s : Wire) : Wire → Prop
  | send (memory : Nat → UInt8) (vptr : Nat) (nbytes : Size) (hidle : s.sending = none) :
      Step capacity s { s with
        sender := { s.sender with memory := memory }
        sending := some (begin { s.sender with memory := memory } vptr nbytes) }
  | sendAgain {t : Transfer} {answers : List FdAnswer} {state : Nat × Nat} {fd : Fd} (hcall : s.sending = some t)
      (hrun : writenRound t.nbytes t.state (s.asksSend answers) = .ok (.again state, fd))
      (hused : fd.script = []) (hroom : fd.accepted.length ≤ s.receiver.obtained + capacity) :
      Step capacity s { s with sender := fd, sending := some (t.onward answers state) }
  | sendDone {t : Transfer} {answers : List FdAnswer} {r : Nat} {fd : Fd} (hcall : s.sending = some t)
      (hrun : writenRound t.nbytes t.state (s.asksSend answers) = .ok (.done r, fd))
      (hused : fd.script = []) (hroom : fd.accepted.length ≤ s.receiver.obtained + capacity) :
      Step capacity s { s with sender := fd, sending := none, sent := s.sent ++ [s.sentReport t answers r fd] }
  | recv (memory : Nat → UInt8) (vptr : Nat) (nbytes : Size) (hidle : s.receiving = none) :
      Step capacity s { s with
        receiver := { s.receiver with memory := memory }
        receiving := some (begin { s.receiver with memory := memory } vptr nbytes) }
  | recvAgain {t : Transfer} {answers : List FdAnswer} {state : Nat × Nat} {fd : Fd} (hcall : s.receiving = some t)
      (hrun : readnRound t.nbytes t.state (s.asksRecv answers) = .ok (.again state, fd))
      (hused : fd.script = []) (hthere : fd.obtained ≤ s.sender.accepted.length) :
      Step capacity s { s with receiver := fd, receiving := some (t.onward answers state) }
  | recvDone {t : Transfer} {answers : List FdAnswer} {r : Nat} {fd : Fd} (hcall : s.receiving = some t)
      (hrun : readnRound t.nbytes t.state (s.asksRecv answers) = .ok (.done r, fd))
      (hused : fd.script = []) (hthere : fd.obtained ≤ s.sender.accepted.length) :
      Step capacity s { s with receiver := fd, receiving := none, received := s.received ++ [receivedReport t answers r fd] }

/-- A stream that nothing has been sent on. -/
def Init (s : Wire) : Prop :=
  s.sender.accepted = [] ∧ s.receiver.obtained = 0 ∧ s.sending = none ∧ s.receiving = none ∧ s.sent = [] ∧ s.received = []

/-- The states that the two processes reach. -/
def Reachable (capacity : Nat) : Wire → Prop := Trans.Reachable Init (Step capacity)

/-- The messages of the caller: those of the calls that have returned, and the one that is being sent. -/
def messages (s : Wire) : List (List UInt8) :=
  s.sent.map Report.bytes ++ (s.sending.map fun t => slice s.sender.memory t.vptr t.nbytes.1).toList

end Wire

end QPHi
