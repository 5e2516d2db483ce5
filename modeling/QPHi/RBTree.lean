import Mathlib.Logic.Function.Basic
import QPHi.Basic
import QPHi.Lib.Loop
import QPHi.Lib.Tree

/-! The red-black tree of `core/qp_memory_core.c`: nodes in memory, linked by `left`, `right` and `parent`,
    with one sentinel per tree that stands for every leaf and for the parent of the root.

    The functions of the source that are mirror images of each other, and the mirrored branches inside the
    two fix-up loops, are one definition with a side. -/

namespace QPHi
open BinTree (Side Color)
open Loop

/-- `struct qp_rbtree_node_s`. -/
structure Node where
  left : Ptr
  right : Ptr
  parent : Ptr
  data : Ptr
  key : UInt64
  color : Color
deriving DecidableEq, Repr

namespace Node

def child (n : Node) : Side → Ptr
  | .left => n.left
  | .right => n.right

def setChild (n : Node) (p : Ptr) : Side → Node
  | .left => { n with left := p }
  | .right => { n with right := p }

def setParent (n : Node) (p : Ptr) : Node := { n with parent := p }

def setColor (n : Node) (k : Color) : Node := { n with color := k }

def setContent (n : Node) (key : UInt64) (data : Ptr) : Node := { n with key := key, data := data }

variable (n : Node) (p : Ptr) (d : Side) (k : Color)

@[simp] theorem setChild_child : (n.setChild p d).child d = p := by cases d <;> rfl
@[simp] theorem setChild_child_flip : (n.setChild p d).child d.flip = n.child d.flip := by cases d <;> rfl
@[simp] theorem setChild_flip_child : (n.setChild p d.flip).child d = n.child d := by cases d <;> rfl
@[simp] theorem setChild_parent : (n.setChild p d).parent = n.parent := by cases d <;> rfl
@[simp] theorem setChild_color : (n.setChild p d).color = n.color := by cases d <;> rfl
@[simp] theorem setChild_key : (n.setChild p d).key = n.key := by cases d <;> rfl
@[simp] theorem setChild_data : (n.setChild p d).data = n.data := by cases d <;> rfl
@[simp] theorem setParent_parent : (n.setParent p).parent = p := rfl
@[simp] theorem setParent_child : (n.setParent p).child d = n.child d := by cases d <;> rfl
@[simp] theorem setParent_color : (n.setParent p).color = n.color := rfl
@[simp] theorem setParent_key : (n.setParent p).key = n.key := rfl
@[simp] theorem setParent_data : (n.setParent p).data = n.data := rfl
@[simp] theorem setColor_color : (n.setColor k).color = k := rfl
@[simp] theorem setColor_child : (n.setColor k).child d = n.child d := by cases d <;> rfl
@[simp] theorem setColor_parent : (n.setColor k).parent = n.parent := rfl
@[simp] theorem setColor_key : (n.setColor k).key = n.key := rfl
@[simp] theorem setColor_data : (n.setColor k).data = n.data := rfl

end Node

/-- `struct qp_rbtree_s`, together with the memory its nodes live in; `nil` is the address of the embedded
    sentinel. -/
structure RBTree where
  root : Ptr
  nil : Ptr
  mem : Ptr → Node

namespace RBTree

def load (t : RBTree) (p : Ptr) : Option Node := if p = NULL then none else some (t.mem p)

def write (t : RBTree) (p : Ptr) (n : Node) : RBTree := { t with mem := Function.update t.mem p n }

def modify (t : RBTree) (p : Ptr) (f : Node → Node) : Option RBTree :=
  if p = NULL then none else some (t.write p (f (t.mem p)))

/-! ### Accessors -/

/-- `qp_rbtree_set_red` and `qp_rbtree_set_black`. -/
def setColor (c : Color) (t : RBTree) (node : Ptr) : RBTree :=
  if node = NULL then t else t.write node ((t.mem node).setColor c)

def setRed : RBTree → Ptr → RBTree := setColor .red
def setBlack : RBTree → Ptr → RBTree := setColor .black

/-- `qp_rbtree_is_red` and `qp_rbtree_is_black`. -/
def hasColor (c : Color) (t : RBTree) (node : Ptr) : Bool :=
  if node = NULL then false else (t.mem node).color = c

def isRed : RBTree → Ptr → Bool := hasColor .red
def isBlack : RBTree → Ptr → Bool := hasColor .black

def parent (t : RBTree) (node : Ptr) : Ptr := if node = NULL then NULL else (t.mem node).parent

def grandpa (t : RBTree) (node : Ptr) : Ptr := t.parent (t.parent node)

/-- `qp_rbtree_is_left` and `qp_rbtree_is_right`. -/
def isChild (d : Side) (t : RBTree) (node : Ptr) : Option Bool :=
  if node = NULL then some false else do
    let p ← t.load (t.parent node)
    pure (node = p.child d)

def isLeft : RBTree → Ptr → Option Bool := isChild .left
def isRight : RBTree → Ptr → Option Bool := isChild .right

def uncle (t : RBTree) (node : Ptr) : Option Ptr :=
  if node = NULL then some NULL else do
    if ← t.isLeft (t.parent node) then
      pure (← t.load (t.grandpa node)).right
    else
      pure (← t.load (t.grandpa node)).left

def brother (t : RBTree) (node : Ptr) : Option Ptr :=
  if node = NULL then some NULL else do
    if ← t.isLeft node then
      pure (← t.load (t.parent node)).right
    else
      pure (← t.load (t.parent node)).left

def isEmpty (t : RBTree) : Bool := t.root = t.nil

/-- `qp_rbtree_init` on a tree whose sentinel is at `nil`. -/
def init (nil : Ptr) (mem : Ptr → Node) : RBTree where
  root := nil
  nil := nil
  mem := Function.update mem nil { mem nil with left := nil, right := nil, parent := nil, color := .black }

/-! ### Rotations -/

/-- The link from the parent of `node` to `node` becomes a link to `new`. -/
def relink (t : RBTree) (node new : Ptr) : Option RBTree := do
  if ← t.isLeft node then t.modify (t.parent node) (·.setChild new .left)
  else t.modify (t.parent node) (·.setChild new .right)

def replaceChild (t : RBTree) (node new : Ptr) : Option RBTree :=
  if node = t.root then some { t with root := new } else t.relink node new

def adopt (t : RBTree) (child node : Ptr) : Option RBTree :=
  if child ≠ t.nil then t.modify child (·.setParent node) else some t

/-- The rotation that moves `node` down to side `d`, below its child on the other side. -/
def rotate (d : Side) (t : RBTree) (node : Ptr) : Option RBTree := do
  let up := (← t.load node).child d.flip
  let t ← t.modify up (·.setParent (t.parent node))
  let t ← t.replaceChild node up
  let t ← t.modify node (·.setParent up)
  let inner := (← t.load up).child d
  let t ← t.modify node (·.setChild inner d.flip)
  let t ← t.adopt inner node
  t.modify up (·.setChild node d)

def leftRotate : RBTree → Ptr → Option RBTree := rotate .left
def rightRotate : RBTree → Ptr → Option RBTree := rotate .right

/-! ### Insertion -/

def insertFixInner (d : Side) (t : RBTree) (node : Ptr) : Option (RBTree × Ptr) := do
  if ← t.isChild d.flip node then
    let node := t.parent node
    pure (← t.rotate d node, node)
  else
    pure (t, node)

/-- The branch of `qp_rbtree_insert_fix` for a black uncle, with the parent on side `d`. -/
def insertFixRotate (d : Side) (t : RBTree) (node : Ptr) : Option (RBTree × Ptr) := do
  let (t, node) ← t.insertFixInner d node
  let t := t.setBlack (t.parent node)
  let t := t.setRed (t.grandpa node)
  pure (← t.rotate d.flip (t.grandpa node), node)

/-- One round of the loop of `qp_rbtree_insert_fix`. -/
def insertFixRound : RBTree × Ptr → Option (Next (RBTree × Ptr) RBTree)
  | (t, node) => do
    if node ≠ t.root ∧ t.isRed (t.parent node) then
      if t.isRed (← t.uncle node) then
        let t := t.setBlack (t.parent node)
        let t := t.setBlack (← t.uncle node)
        let t := t.setRed (t.grandpa node)
        pure (.again (t, t.grandpa node))
      else
        let d := if ← t.isLeft (t.parent node) then Side.left else Side.right
        pure (.again (← t.insertFixRotate d node))
    else
      pure (.done (t.setBlack t.root))

def insertFix (fuel : Nat) (t : RBTree) (node : Ptr) : Option RBTree := iterate insertFixRound fuel (t, node)

def insertRepair (fuel : Nat) (t : RBTree) (node : Ptr) : Option RBTree :=
  if t.isRed (t.parent node) then t.insertFix fuel node else some t

/-- One round of the search of `qp_rbtree_insert`: it leaves with the node to hang `node` under, or with
    `none` when the key is taken. -/
def descendRound (t : RBTree) (node cur : Ptr) : Option (Next Ptr (Option Ptr)) := do
  let n ← t.load node
  let c ← t.load cur
  if n.key = c.key then pure (.done none)
  else
    let next := if n.key < c.key then c.left else c.right
    if next = t.nil then pure (.done (some cur)) else pure (.again next)

/-- `qp_rbtree_insert`: the tree afterwards and the returned pointer. -/
def insert (fuel : Nat) (t : RBTree) (node : Ptr) : Option (RBTree × Ptr) :=
  if node = NULL then some (t, NULL)
  else if t.isEmpty then do
    let t := t.setBlack node
    let t ← t.modify node (·.setChild t.root .left)
    let t ← t.modify node (·.setChild t.root .right)
    let t ← t.modify node (·.setParent t.root)
    pure ({ t with root := node }, node)
  else do
    match ← iterate (t.descendRound node) fuel t.root with
    | none => pure (t, NULL)
    | some cur =>
      let n ← t.load node
      let c ← t.load cur
      let d := if n.key < c.key then Side.left else Side.right
      let t ← t.modify node (·.setChild (c.child d) d)
      let t ← t.modify node (·.setChild t.nil d.flip)
      let t ← t.modify cur (·.setChild node d)
      let t ← t.modify node (·.setParent cur)
      let t := t.setRed node
      pure (← t.insertRepair fuel node, node)

/-! ### Deletion -/

/-- A red brother is rotated away. -/
def deleteFixRed (d : Side) (t : RBTree) (node : Ptr) : Option RBTree := do
  if t.isRed (← t.brother node) then
    let t := t.setBlack (← t.brother node)
    let t := t.setRed (t.parent node)
    t.rotate d (t.parent node)
  else
    pure t

/-- A red child of the brother on the side of `node` is rotated to the other side. -/
def deleteFixInner (d : Side) (t : RBTree) (node : Ptr) : Option RBTree := do
  if t.isBlack ((← t.load (← t.brother node)).child d.flip) then
    let t := t.setBlack ((← t.load (← t.brother node)).child d)
    let t := t.setRed (← t.brother node)
    t.rotate d.flip (← t.brother node)
  else
    pure t

/-- The brother takes the colour and the place of the parent. -/
def deleteFixOuter (d : Side) (t : RBTree) (node : Ptr) : Option RBTree := do
  let t := t.setColor (if t.isBlack (t.parent node) then .black else .red) (← t.brother node)
  let t := t.setBlack (t.parent node)
  let t := t.setBlack ((← t.load (← t.brother node)).child d.flip)
  t.rotate d (t.parent node)

/-- The branch of `qp_rbtree_delete_fix` for a node on side `d`. -/
def deleteFixSide (d : Side) (t : RBTree) (node : Ptr) : Option (RBTree × Ptr) := do
  let t ← t.deleteFixRed d node
  let w ← t.load (← t.brother node)
  if t.isBlack (w.child d) ∧ t.isBlack (w.child d.flip) then
    let t := t.setRed (← t.brother node)
    pure (t, t.parent node)
  else
    let t ← t.deleteFixInner d node
    let t ← t.deleteFixOuter d node
    pure (t, t.root)

/-- One round of the loop of `qp_rbtree_delete_fix`. -/
def deleteFixRound : RBTree × Ptr → Option (Next (RBTree × Ptr) RBTree)
  | (t, node) => do
    if node ≠ t.root ∧ t.isBlack node then
      let d := if ← t.isLeft node then Side.left else Side.right
      pure (.again (← t.deleteFixSide d node))
    else
      pure (.done (t.setBlack node))

def deleteFix (fuel : Nat) (t : RBTree) (node : Ptr) : Option RBTree := iterate deleteFixRound fuel (t, node)

def extremeRound (d : Side) (t : RBTree) (node : Ptr) : Option (Next Ptr Ptr) := do
  let next := (← t.load node).child d
  if next ≠ t.nil then pure (.again next) else pure (.done node)

/-- `qp_rbtree_min` and `qp_rbtree_max`. -/
def extreme (d : Side) (fuel : Nat) (t : RBTree) (node : Ptr) : Option Ptr :=
  if t.isEmpty then some NULL
  else iterate (extremeRound d t) fuel (if node = NULL then t.root else node)

def min : Nat → RBTree → Ptr → Option Ptr := extreme .left
def max : Nat → RBTree → Ptr → Option Ptr := extreme .right

/-- As `replaceChild`, but here the sentinel above tells the root. -/
def unlink (t : RBTree) (subst tmp : Ptr) : Option RBTree :=
  if t.nil = t.parent subst then some { t with root := tmp } else t.relink subst tmp

def takeContent (t : RBTree) (node subst : Ptr) : Option RBTree := do
  if node ≠ subst then
    let s ← t.load subst
    t.modify node (·.setContent s.key s.data)
  else
    pure t

def deleteRepair (fuel : Nat) (t : RBTree) (subst tmp : Ptr) : Option RBTree :=
  if t.isBlack subst then t.deleteFix fuel tmp else some t

/-- The node that leaves the tree when `node` is deleted: `node` itself, or its successor. -/
def substOf (fuel : Nat) (t : RBTree) (node : Ptr) : Option Ptr := do
  let n ← t.load node
  if t.nil = n.left ∨ t.nil = n.right then pure node else t.min fuel n.right

/-- `subst` is cut out; its only child, or the sentinel, takes its place. -/
def cutOut (t : RBTree) (subst : Ptr) : Option (RBTree × Ptr) := do
  let s ← t.load subst
  let tmp := if t.nil ≠ s.left then s.left else s.right
  let t ← t.modify tmp (·.setParent (t.parent subst))
  pure (← t.unlink subst tmp, tmp)

/-- `qp_rbtree_delete`: the tree afterwards and the returned pointer. -/
def delete (fuel : Nat) (t : RBTree) (node : Ptr) : Option (RBTree × Ptr) :=
  if node = NULL ∨ t.isEmpty then some (t, NULL)
  else do
    let subst ← t.substOf fuel node
    let (t, tmp) ← t.cutOut subst
    let t ← t.takeContent node subst
    pure (← t.deleteRepair fuel subst tmp, subst)

/-! ### Search -/

/-- A round of the loop of `qp_rbtree_find`, whose key has 32 bits. -/
def findRound (t : RBTree) (key : UInt32) (node : Ptr) : Option (Next Ptr Ptr) := do
  if node = t.nil then pure (.done NULL)
  else
    let n ← t.load node
    if key.toUInt64 = n.key then pure (.done node)
    else pure (.again (if key.toUInt64 < n.key then n.left else n.right))

/-- `qp_rbtree_find`. -/
def find (fuel : Nat) (t : RBTree) (key : UInt32) : Option Ptr := iterate (t.findRound key) fuel t.root

end RBTree

end QPHi
