import Mathlib.Logic.Function.Basic
import QPHi.Basic

/-! The memory that the lists, pools and managers of `core/` live in: one map for each kind of field, by the
    address of the structure the field belongs to, and the blocks that `malloc` has handed out. -/

namespace QPHi

/-- `size_t` arithmetic. -/
def addWord (a b : Nat) : Nat := (a + b) % 2 ^ 64
def subWord (a b : Nat) : Nat := (a + 2 ^ 64 - b) % 2 ^ 64
def mulWord (a b : Nat) : Nat := a * b % 2 ^ 64

/-- `struct qp_pool_s` without the head of its free list, which is at the address of the pool. -/
structure Pool where
  room : Ptr
  nsize : Nat
  esize : Nat
  nfree : Nat
  isInited : Bool
  isAlloced : Bool
deriving DecidableEq, Repr

/-- `struct qp_manager_s` without its queue and its list. -/
structure Manager where
  poolCount : Nat
  nfree : Nat
  esize : Nat
  ecount : Nat
  isInited : Bool
  isAlloced : Bool
deriving DecidableEq, Repr

/-- A block of memory: its address and its length. -/
abbrev Block := Nat × Nat

def Apart (b b' : Block) : Prop := b.1 + b.2 ≤ b'.1 ∨ b'.1 + b'.2 ≤ b.1

instance (b b' : Block) : Decidable (Apart b b') := inferInstanceAs (Decidable (_ ∨ _))

structure Heap where
  /-- `qp_list_s` -/
  next : Ptr → Ptr
  /-- `qp_queue_s` -/
  qprev : Ptr → Ptr
  qnext : Ptr → Ptr
  /-- `root` of `qp_pool_elm_s` -/
  root : Ptr → Ptr
  pool : Ptr → Pool
  manager : Ptr → Manager
  /-- `manager` of `qp_manager_elm_s` -/
  owner : Ptr → Ptr
  live : List Block

namespace Heap

/-! ### malloc and free -/

/-- `malloc` never hands out memory that is in use. -/
def Fresh (h : Heap) (b : Block) : Prop := b.1 ≠ NULL ∧ b.1 + b.2 < 2 ^ 64 ∧ ∀ b' ∈ h.live, Apart b b'

instance (h : Heap) (b : Block) : Decidable (h.Fresh b) := inferInstanceAs (Decidable (_ ∧ _ ∧ _))

/-- `qp_alloc`, which answers with `at?` when a block can be there, and with `NULL` otherwise. Even an empty
    block has an address of its own. -/
def alloc (at? : Ptr) (h : Heap) (size : Nat) : Heap × Ptr :=
  if h.Fresh (at?, max size 1) then ({ h with live := (at?, max size 1) :: h.live }, at?) else (h, NULL)

/-- `qp_free`, which is undefined for an address that is not the start of a live block. -/
def free (h : Heap) (p : Ptr) : Option Heap :=
  if p = NULL then some h
  else if ∃ b ∈ h.live, b.1 = p then some { h with live := h.live.filter (·.1 ≠ p) }
  else none

/-! ### Lists -/

def listInit (h : Heap) (list : Ptr) : Heap :=
  if list = NULL then h else { h with next := Function.update h.next list list }

def listIsEmpty (h : Heap) (list : Ptr) : Bool := if list = NULL then true else list = h.next list

def listFirst (h : Heap) (list : Ptr) : Ptr := if h.listIsEmpty list then NULL else h.next list

def listPush (h : Heap) (list node : Ptr) : Heap :=
  if list ≠ NULL ∧ node ≠ NULL then
    { h with next := Function.update (Function.update h.next node (h.next list)) list node }
  else h

def listPop (h : Heap) (list : Ptr) : Heap :=
  if list = NULL then h else { h with next := Function.update h.next list (h.next (h.next list)) }

/-! ### Queues -/

def queueInit (h : Heap) (queue : Ptr) : Heap :=
  if queue = NULL then h
  else { h with qprev := Function.update h.qprev queue queue, qnext := Function.update h.qnext queue queue }

def queueInsertAfterHead (h : Heap) (queue node : Ptr) : Heap :=
  if queue ≠ NULL ∧ node ≠ NULL then
    let h := { h with qnext := Function.update h.qnext node (h.qnext queue) }
    let h := { h with qprev := Function.update h.qprev (h.qnext node) node }
    let h := { h with qprev := Function.update h.qprev node queue }
    { h with qnext := Function.update h.qnext queue node }
  else h

def queueIsEmpty (h : Heap) (queue : Ptr) : Bool := if queue = NULL then true else queue = h.qprev queue

def queueInsertAfterTail (h : Heap) (queue node : Ptr) : Heap :=
  if queue ≠ NULL ∧ node ≠ NULL then
    let h := { h with qprev := Function.update h.qprev node (h.qprev queue) }
    let h := { h with qnext := Function.update h.qnext (h.qprev node) node }
    let h := { h with qnext := Function.update h.qnext node queue }
    { h with qprev := Function.update h.qprev queue node }
  else h

def queueFirst (h : Heap) (queue : Ptr) : Ptr := if h.queueIsEmpty queue then NULL else h.qnext queue

def queueLast (h : Heap) (queue : Ptr) : Ptr := if h.queueIsEmpty queue then NULL else h.qprev queue

def queueRemove (h : Heap) (node : Ptr) : Heap :=
  if node = NULL then h
  else
    let h := { h with qprev := Function.update h.qprev (h.qnext node) (h.qprev node) }
    { h with qnext := Function.update h.qnext (h.qprev node) (h.qnext node) }

def queueSplit (h : Heap) (queue node newq : Ptr) : Heap :=
  if queue ≠ NULL ∧ node ≠ NULL ∧ newq ≠ NULL then
    let h := { h with qprev := Function.update h.qprev newq (h.qprev queue) }
    let h := { h with qnext := Function.update h.qnext (h.qprev newq) newq }
    let h := { h with qnext := Function.update h.qnext newq node }
    let h := { h with qprev := Function.update h.qprev queue (h.qprev node) }
    let h := { h with qnext := Function.update h.qnext (h.qprev queue) queue }
    { h with qprev := Function.update h.qprev node newq }
  else h

def queueMerge (h : Heap) (queue newq : Ptr) : Heap :=
  if queue ≠ NULL ∧ newq ≠ NULL then
    let h := { h with qnext := Function.update h.qnext (h.qprev queue) (h.qnext newq) }
    let h := { h with qprev := Function.update h.qprev (h.qnext newq) (h.qprev queue) }
    let h := { h with qprev := Function.update h.qprev queue (h.qprev newq) }
    { h with qnext := Function.update h.qnext (h.qprev queue) queue }
  else h

end Heap

end QPHi
