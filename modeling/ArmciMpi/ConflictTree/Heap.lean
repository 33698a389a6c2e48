import ArmciMpi.Lib.BalancedTree
import ArmciMpi.Mpi.Types

/-!
# The conflict tree

The tree of `conflict_tree.c` on a heap of nodes with child and parent
pointers. Every pointer the code follows is looked up, so a null or dangling
pointer, a failed assertion and the error in `ctree_balance` all abort.

The two rotations are mirror images and share `rotate`; the direction is the
side on which the pivot hangs under the old root. The loops carry fuel; a tree
of `n` nodes needs at most `n` steps of either loop.
-/

namespace ArmciMpi.ConflictTree

open Lib (Dir)

/-- A node pointer; `none` is NULL. -/
abbrev Ptr := Option Nat

structure Node where
  lo : Int
  hi : Int
  height : Int
  parent : Ptr
  left : Ptr
  right : Ptr

/-- The nodes `malloc` gave out; `next` is the next one it will give. -/
structure Heap where
  cell : Nat → Option Node
  next : Nat

/-- A `ctree_t` variable with the heap it points into. -/
structure CTree where
  heap : Heap
  root : Ptr

def ctreeEmpty : CTree := ⟨⟨fun _ => none, 0⟩, none⟩

namespace Heap

def get (h : Heap) : Ptr → Except String Node
  | none => .error "NULL pointer"
  | some p =>
    match h.cell p with
    | some n => .ok n
    | none => .error "dangling pointer"

def set (h : Heap) (p : Nat) (n : Node) : Heap :=
  { h with cell := fun q => if q = p then some n else h.cell q }

/-- The node a call of `ctree_insert` allocates and fills in. -/
def alloc (h : Heap) (lo hi : Int) : Heap :=
  { h.set h.next ⟨lo, hi, 1, none, none, none⟩ with next := h.next + 1 }

def free (h : Heap) (p : Nat) : Heap :=
  { h with cell := fun q => if q = p then none else h.cell q }

/-- An assignment to fields of `*p`. -/
def modify (h : Heap) (p : Ptr) (f : Node → Node) : Except String Heap :=
  match p with
  | none => .error "NULL pointer"
  | some p =>
    match h.cell p with
    | some n => .ok (h.set p (f n))
    | none => .error "dangling pointer"

end Heap

def Node.child (d : Dir) (n : Node) : Ptr := d.pick n.left n.right

def Node.setChild (d : Dir) (c : Ptr) (n : Node) : Node :=
  match d with
  | .left => { n with left := c }
  | .right => { n with right := c }

def Node.withParent (p : Ptr) (n : Node) : Node := { n with parent := p }

def Node.withHeight (k : Int) (n : Node) : Node := { n with height := k }

def nodeHeight (h : Heap) : Ptr → Except String Int
  | none => .ok 0
  | some p => do
    let n ← h.get (some p)
    return n.height

def updateHeight (h : Heap) (p : Ptr) : Except String Heap := do
  let n ← h.get p
  let heightL ← nodeHeight h n.left
  let heightR ← nodeHeight h n.right
  h.modify p (Node.withHeight (max heightL heightR + 1))

/-- The child pointer of `parent` that points to `oldRoot` is set to `node`. -/
def replaceChild (h : Heap) (parent oldRoot node : Ptr) : Except String Heap :=
  match parent with
  | none => .ok h
  | some p => do
    let n ← h.get (some p)
    if n.left = oldRoot then h.modify (some p) (Node.setChild .left node)
    else h.modify (some p) (Node.setChild .right node)

def setParent (h : Heap) (child parent : Ptr) : Except String Heap :=
  match child with
  | none => .ok h
  | some c => h.modify (some c) (Node.withParent parent)

/-- First half of a rotation: the pivot takes the place of the old root below
`up`, and the old root takes over the pivot's inner child. -/
def raisePivot (d : Dir) (h : Heap) (node oldRoot up : Ptr) : Except String Heap := do
  let h ← h.modify node (Node.withParent up)
  let h ← replaceChild h up oldRoot node
  let inner := (← h.get node).child d.flip
  let h ← h.modify oldRoot (Node.setChild d inner)
  setParent h inner oldRoot

/-- Second half: the old root becomes the pivot's inner child, and both heights
are set. -/
def lowerRoot (d : Dir) (h : Heap) (node oldRoot : Ptr) : Except String Heap := do
  let h ← h.modify node (Node.setChild d.flip oldRoot)
  let h ← setParent h oldRoot node
  let h ← updateHeight h oldRoot
  updateHeight h node

/-- `ctree_rotate_left` for `d = right`, `ctree_rotate_right` for `d = left`. -/
def rotate (d : Dir) (h : Heap) (node : Ptr) : Except String Heap := do
  let oldRoot := (← h.get node).parent
  let root ← h.get oldRoot
  if root.child d ≠ node then
    throw (d.pick "old_root->left == node" "old_root->right == node")
  let h ← raisePivot d h node oldRoot root.parent
  lowerRoot d h node oldRoot

def ctreeRotateLeft (h : Heap) (node : Ptr) : Except String Heap := rotate .right h node

def ctreeRotateRight (h : Heap) (node : Ptr) : Except String Heap := rotate .left h node

/-- The subtree of `node` on side `d` is too deep; the result is the heap and
the root of the subtree after the rotations. -/
def rotateHeavy (d : Dir) (h : Heap) (node : Ptr) : Except String (Heap × Ptr) := do
  let child := (← h.get node).child d
  let c ← h.get child
  let heightInner ← nodeHeight h (c.child d.flip)
  let heightOuter ← nodeHeight h (c.child d)
  if heightInner - heightOuter ≤ 0 then
    let h ← rotate d h child
    return (h, child)
  else
    let h ← rotate d.flip h (c.child d.flip)
    let child := (← h.get node).child d
    let h ← rotate d h child
    return (h, child)

/-- One turn of the loop of `ctree_balance`. -/
def balanceNode (h : Heap) (node : Ptr) : Except String (Heap × Ptr) := do
  let n ← h.get node
  let heightL ← nodeHeight h n.left
  let heightR ← nodeHeight h n.right
  let h ← updateHeight h node
  if 2 ≤ |heightL - heightR| then
    if heightL - heightR = -2 then rotateHeavy .right h node
    else if heightL - heightR = 2 then rotateHeavy .left h node
    else throw "CTree invariant violated, height difference of %d is too large"
  else return (h, node)

/-- `ctree_balance`: from `node` to the root, which is returned. -/
def ctreeBalance (fuel : Nat) (h : Heap) (root node : Ptr) : Except String (Heap × Ptr) :=
  match node with
  | none => .ok (h, root)
  | some p =>
    match fuel with
    | 0 => .error "out of fuel"
    | fuel + 1 => do
      let (h, node) ← balanceNode h (some p)
      ctreeBalance fuel h node (← h.get node).parent

def Node.Conflicts (n : Node) (lo hi : Int) : Prop :=
  (lo ≥ n.lo ∧ lo ≤ n.hi) ∨ (hi ≥ n.lo ∧ hi ≤ n.hi) ∨ (lo < n.lo ∧ hi > n.hi)

instance (n : Node) (lo hi : Int) : Decidable (n.Conflicts lo hi) :=
  inferInstanceAs (Decidable ((lo ≥ n.lo ∧ lo ≤ n.hi) ∨ (hi ≥ n.lo ∧ hi ≤ n.hi) ∨
    (lo < n.lo ∧ hi > n.hi)))

/-- The loop of `ctree_insert` at `cur`: the heap, whether there was a conflict,
and the new root if the node was linked. -/
def insertAt (fuel : Nat) (h : Heap) (newNode : Nat) (lo hi : Int) (cur : Nat) :
    Except String (Heap × Option Ptr) :=
  match fuel with
  | 0 => .error "out of fuel"
  | fuel + 1 => do
    let n ← h.get (some cur)
    if n.Conflicts lo hi then
      return (h.free newNode, none)
    else
      let d := if lo < n.lo then Dir.left else Dir.right
      match n.child d with
      | none =>
        let h ← h.modify (some newNode) (Node.withParent (some cur))
        let h ← h.modify (some cur) (Node.setChild d (some newNode))
        let (h, root) ← ctreeBalance h.next h (some cur) (some cur)
        return (h, some root)
      | some c => insertAt fuel h newNode lo hi c

/-- `ctree_insert`: the tree and whether a conflict was found. -/
def ctreeInsert (t : CTree) (lo hi : Int) : Except String (CTree × Bool) :=
  let newNode := t.heap.next
  let h := t.heap.alloc lo hi
  match t.root with
  | none => .ok (⟨h, some newNode⟩, false)
  | some cur => do
    let (h, root) ← insertAt h.next h newNode lo hi cur
    match root with
    | some root => return (⟨h, root⟩, false)
    | none => return (⟨h, t.root⟩, true)

def ctreeLocate (fuel : Nat) (h : Heap) (cur : Ptr) (lo hi : Int) : Except String Ptr :=
  match cur with
  | none => .ok none
  | some p =>
    match fuel with
    | 0 => .error "out of fuel"
    | fuel + 1 => do
      let n ← h.get (some p)
      if n.Conflicts lo hi then return some p
      else if lo < n.lo then ctreeLocate fuel h n.left lo hi
      else ctreeLocate fuel h n.right lo hi

end ArmciMpi.ConflictTree
