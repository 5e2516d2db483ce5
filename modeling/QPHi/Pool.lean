import QPHi.Heap
import QPHi.Lib.Loop

/-! The memory pools of `core/qp_pool_core.c`: a pool hands out the elements of one room, and a manager keeps
    a queue of pools that grows and shrinks with the demand. -/

namespace QPHi
open Loop

/-- `sizeof(struct qp_pool_elm_s)`: every element starts with its header. -/
def sizeofPoolElm : Nat := 16

/-- `sizeof(struct qp_pool_s)`. -/
def sizeofPool : Nat := 56

/-- `sizeof(struct qp_manager_elm_s)` and the offsets of `link` and `pool` in it. -/
def sizeofManagerElm : Nat := 88
def offsetofLink : Nat := 16
def offsetofPool : Nat := 24

/-- `sizeof(struct qp_manager_s)` and the offset of `available_pools` in it. -/
def sizeofManager : Nat := 64
def offsetofAvailable : Nat := 16

namespace Heap

def setPool (h : Heap) (pool : Ptr) (f : Pool → Pool) : Heap :=
  { h with pool := Function.update h.pool pool (f (h.pool pool)) }

def setManager (h : Heap) (manager : Ptr) (f : Manager → Manager) : Heap :=
  { h with manager := Function.update h.manager manager (f (h.manager manager)) }

/-! ### Pools -/

/-- `qp_pool_create`. -/
def poolCreate (at? : Ptr) (h : Heap) (pool : Ptr) : Heap × Ptr :=
  if pool = NULL then
    let (h, pool) := h.alloc at? sizeofPool
    if pool = NULL then (h, NULL)
    else ((h.setPool pool fun _ => ⟨NULL, 0, 0, 0, true, true⟩).listInit pool, pool)
  else ((h.setPool pool fun _ => ⟨NULL, 0, 0, 0, true, false⟩).listInit pool, pool)

/-- `qp_pool_destroy`. -/
def poolDestroy (h : Heap) (pool : Ptr) (force : Bool) : Option (Heap × Int) :=
  if pool ≠ NULL ∧ (h.pool pool).isInited then
    if !force ∧ (h.pool pool).nfree ≠ (h.pool pool).nsize then some (h, QP_ERROR)
    else do
      let h ← h.free (h.pool pool).room
      let h := h.setPool pool fun p => { p with room := NULL }
      let h := h.setPool pool fun p => { p with isInited := false }
      let h ← if (h.pool pool).isAlloced then h.free pool else some h
      pure (h, QP_SUCCESS)
  else some (h, QP_ERROR)

/-- The loop of `qp_pool_init`: the elements from `offset` on, `n` of them, are put on the free list. Nothing asks whether the
    headers that are written are inside of the room. They are, as long as `bucket * n` does not overflow. -/
def poolFill (pool room bucket : Ptr) : Nat → Nat → Heap → Heap
  | 0, _, h => h
  | n + 1, offset, h =>
    let elements := addWord room offset
    let h := { h with root := Function.update h.root elements pool }
    poolFill pool room bucket n (addWord offset bucket) (h.listPush pool elements)

/-- `qp_pool_init`: `at?` answers for the pool itself, `room?` for its room. -/
def poolInit (at? room? : Ptr) (h : Heap) (pool : Ptr) (elmsize count : Nat) : Option (Heap × Ptr) :=
  let (h, pool) := h.poolCreate at? pool
  if pool = NULL then some (h, NULL)
  else
    let h := h.setPool pool fun p => { p with esize := elmsize, nsize := count, nfree := count }
    let bucket := addWord elmsize sizeofPoolElm
    let (h, room) := h.alloc room? (mulWord bucket count)
    let h := h.setPool pool fun p => { p with room := room }
    if room = NULL then do
      let (h, _) ← h.poolDestroy pool true
      pure (h, NULL)
    else some (poolFill pool room bucket count 0 h, pool)

def poolAvailable (h : Heap) (pool : Ptr) : Nat := (h.pool pool).nfree

def poolUsed (h : Heap) (pool : Ptr) : Nat := subWord (h.pool pool).nsize (h.pool pool).nfree

def poolToArray (h : Heap) (pool : Ptr) (index : Nat) : Ptr :=
  if pool ≠ NULL ∧ (h.pool pool).isInited then
    addWord (addWord (h.pool pool).room (mulWord index (addWord (h.pool pool).esize sizeofPoolElm))) sizeofPoolElm
  else NULL

def poolBelongTo (ptr : Ptr) : Ptr := subWord ptr sizeofPoolElm

/-- `qp_pool_alloc`. -/
def poolAlloc (h : Heap) (pool : Ptr) (size : Nat) : Heap × Ptr :=
  if size ≤ (h.pool pool).esize ∧ h.poolAvailable pool > 0 then
    let node := h.listFirst pool
    if node = NULL then (h, NULL)
    else
      let h := h.listPop pool
      let h := h.setPool pool fun p => { p with nfree := subWord p.nfree 1 }
      let h := { h with next := Function.update h.next node NULL }
      (h, addWord node sizeofPoolElm)
  else (h, NULL)

/-- `qp_pool_free`. -/
def poolFree (h : Heap) (pool ptr : Ptr) : Heap × Int :=
  let elements := poolBelongTo ptr
  if h.root elements ≠ pool then (h, QP_ERROR)
  else
    let h := h.listPush pool elements
    (h.setPool pool fun p => { p with nfree := addWord p.nfree 1 }, QP_SUCCESS)

/-! ### Managers -/

/-- `qp_manager_create`. -/
def managerCreate (at? : Ptr) (h : Heap) (manager : Ptr) : Heap × Ptr :=
  let init (h : Heap) (manager : Ptr) (alloced : Bool) : Heap :=
    let h := h.setManager manager fun _ => ⟨0, 0, 0, 0, true, alloced⟩
    let h := h.queueInit manager
    h.listInit (addWord manager offsetofAvailable)
  if manager = NULL then
    let (h, manager) := h.alloc at? sizeofManager
    if manager = NULL then (h, NULL) else (init h manager true, manager)
  else (init h manager false, manager)

/-- `qp_manager_init`. -/
def managerInit (at? : Ptr) (h : Heap) (manager : Ptr) (elmsize count : Nat) : Heap × Ptr :=
  let (h, manager) := h.managerCreate at? manager
  if manager = NULL then (h, NULL)
  else (h.setManager manager fun m => { m with esize := elmsize, ecount := count }, manager)

def managerAvailable (h : Heap) (manager : Ptr) : Nat := (h.manager manager).nfree

def managerUsed (h : Heap) (manager : Ptr) : Nat :=
  subWord (mulWord (h.manager manager).poolCount (h.manager manager).ecount) (h.manager manager).nfree

/-- The part of `qp_manager_alloc` that adds a pool: `elm?` answers for the element of the queue, `room?` for
    the room of its pool. The result is the link of the new pool, or `NULL`. -/
def managerGrow (elm? room? : Ptr) (h : Heap) (manager : Ptr) : Option (Heap × Ptr) := do
  let (h, elm) := h.alloc elm? sizeofManagerElm
  if elm = NULL then pure (h, NULL)
  else
    let (h, pool) ← h.poolInit NULL room? (addWord elm offsetofPool) (h.manager manager).esize (h.manager manager).ecount
    if pool = NULL then
      let h ← h.free elm
      pure (h, NULL)
    else
      let h := { h with owner := Function.update h.owner elm manager }
      let node := addWord elm offsetofLink
      let h := h.queueInsertAfterHead manager elm
      let h := h.listPush (addWord manager offsetofAvailable) node
      let h := h.setManager manager fun m => { m with nfree := addWord m.nfree m.ecount }
      let h := h.setManager manager fun m => { m with poolCount := addWord m.poolCount 1 }
      pure (h, node)

/-- The part of `qp_manager_alloc` that takes an element out of the pool of `node`. -/
def managerTake (h : Heap) (manager node : Ptr) (size : Nat) : Heap × Ptr :=
  let elm := subWord node offsetofLink
  let (h, ptr) := h.poolAlloc (addWord elm offsetofPool) size
  if ptr = NULL then (h, NULL)
  else
    let h := h.setManager manager fun m => { m with nfree := subWord m.nfree 1 }
    if h.poolAvailable (addWord elm offsetofPool) < 1 then
      let h := h.listPop (addWord manager offsetofAvailable)
      (h.listInit (addWord elm offsetofLink), ptr)
    else (h, ptr)

/-- `qp_manager_alloc`. -/
def managerAlloc (elm? room? : Ptr) (h : Heap) (manager : Ptr) (size : Nat) : Option (Heap × Ptr) :=
  if manager = NULL ∨ size > (h.manager manager).esize then some (h, NULL)
  else do
    let node := h.listFirst (addWord manager offsetofAvailable)
    let (h, node) ← if node = NULL then h.managerGrow elm? room? manager else some (h, node)
    if node = NULL then pure (h, NULL) else pure (h.managerTake manager node size)

/-- The part of `qp_manager_free` that gives up the pool at the head of the available pools. -/
def managerShrink (h : Heap) (manager elm pool : Ptr) : Option Heap := do
  let h := h.listPop (addWord manager offsetofAvailable)
  let h := h.queueRemove elm
  let (h, _) ← h.poolDestroy pool true
  let h ← h.free elm
  let h := h.setManager manager fun m => { m with poolCount := subWord m.poolCount 1 }
  pure (h.setManager manager fun m => { m with nfree := subWord m.nfree m.ecount })

/-- `qp_manager_free`. -/
def managerFree (h : Heap) (manager ptr : Ptr) : Option (Heap × Int) :=
  if manager = NULL ∨ ptr = NULL then some (h, QP_ERROR)
  else
    let pool := h.root (poolBelongTo ptr)
    let elm := subWord pool offsetofPool
    if h.owner elm ≠ manager then some (h, QP_ERROR)
    else
      let (h, _) := h.poolFree pool ptr
      let h := h.setManager manager fun m => { m with nfree := addWord m.nfree 1 }
      let link := addWord elm offsetofLink
      if h.listFirst link = NULL then some (h.listPush (addWord manager offsetofAvailable) link, QP_SUCCESS)
      else if h.poolUsed pool < 1 ∧ link = h.listFirst (addWord manager offsetofAvailable) then do
        let h ← h.managerShrink manager elm pool
        pure (h, QP_SUCCESS)
      else some (h, QP_SUCCESS)

/-- A round of the loop of `qp_manager_destroy`. -/
def managerDestroyRound (manager : Ptr) (force : Bool) (h : Heap) : Option (Next Heap Heap) := do
  if h.queueIsEmpty manager then pure (.done h)
  else
    let elm := h.queueFirst manager
    let (h, _) ← h.poolDestroy (addWord elm offsetofPool) force
    let h := h.queueRemove elm
    let h ← h.free elm
    pure (.again h)

/-- `qp_manager_destroy`. -/
def managerDestroy (fuel : Nat) (h : Heap) (manager : Ptr) (force : Bool) : Option (Heap × Int) :=
  if manager ≠ NULL ∧ (h.manager manager).isInited then
    if !force ∧ (h.manager manager).ecount > 0 then some (h, QP_ERROR)
    else do
      let h ← iterate (managerDestroyRound manager force) fuel h
      let h := h.setManager manager fun m => { m with isInited := false }
      let h ← if (h.manager manager).isAlloced then h.free manager else some h
      pure (h, QP_SUCCESS)
  else some (h, QP_ERROR)

end Heap

end QPHi
