import FreeVMS.Lib.Run
import FreeVMS.Lib.SearchTree
import Mathlib.Logic.Function.Basic

/-!
# The binary trees of the run-time library

`libbintree.c`: `lib$insert_tree`, `lib$lookup_tree` and `lib$traverse_tree` over a modified AVL
library.  A tree is a cell `*treehead` and nodes in memory, which hold two links and a depth of 16
bits; there are no links upwards, so the search hands the parent of the node it ends at to the
rebalancing.  That one works on the whole subtree of the node, and never on the nodes above.

Address 0 is `NULL`, and following it is a fault.  The recursions and the loop of the search are
followed for as many rounds as there is fuel.  The user's procedures are parameters: a comparison
of keys, and for each insertion what the allocation procedure answers.
-/

namespace FreeVMS.Rtl.Tree

variable {K σ : Type}

/-! ### Memory -/

inductive Side where
  | left
  | right
deriving DecidableEq, Repr

def Side.other : Side → Side
  | .left => .right
  | .right => .left

/-- `avl_node_t` -/
structure AvlNode (K : Type) where
  left : Nat
  right : Nat
  depth : UInt16
  item : K

/-- The link on a side. -/
def AvlNode.link (n : AvlNode K) : Side → Nat
  | .left => n.left
  | .right => n.right

def AvlNode.setLink (n : AvlNode K) (v : Nat) : Side → AvlNode K
  | .left => { n with left := v }
  | .right => { n with right := v }

/-- `*treehead` and the nodes. -/
structure Memory (K : Type) where
  treehead : Nat
  node : Nat → AvlNode K

inductive Fault where
  /-- a null pointer is followed -/
  | null
  /-- out of fuel -/
  | diverge
deriving DecidableEq, Repr

/-- What an `avl_node_t **` points to. -/
inductive Cell where
  | treehead
  | link (d : Side) (p : Nat)
deriving DecidableEq, Repr

/-- `LIB$_NORMAL` -/
def libNormal : Nat := 0x00158001

/-- `LIB$_KEYALRINS` -/
def libKeyalrins : Nat := 0x00158021

/-- `LIB$_INSVIRMEM` -/
def libInsvirmem : Nat := 0x00158214

/-- `LIB$_KEYNOTFOU` -/
def libKeynotfou : Nat := 0x001582FC

namespace Memory

/-- The node that a pointer points to. -/
def load (m : Memory K) (p : Nat) : Except Fault (AvlNode K) :=
  if p = 0 then .error .null else .ok (m.node p)

/-- Change the node that a pointer points to. -/
def store (m : Memory K) (p : Nat) (f : AvlNode K → AvlNode K) : Except Fault (Memory K) :=
  if p = 0 then .error .null
  else .ok { m with node := Function.update m.node p (f (m.node p)) }

def setLink (m : Memory K) (d : Side) (p v : Nat) : Except Fault (Memory K) :=
  m.store p fun n => n.setLink v d

def setDepth (m : Memory K) (p d : Nat) : Except Fault (Memory K) :=
  m.store p fun n => { n with depth := UInt16.ofNat d }

/-- `*superparent = v` -/
def setCell (m : Memory K) (c : Cell) (v : Nat) : Except Fault (Memory K) :=
  match c with
  | .treehead => .ok { m with treehead := v }
  | .link d p => m.setLink d p v

/-- `NODE_DEPTH` -/
def nodeDepth (m : Memory K) (n : Nat) : Nat := if n = 0 then 0 else (m.node n).depth.toNat

/-- The stored depth of the subtree on a side. -/
def sideDepth (m : Memory K) (d : Side) (n : Nat) : Except Fault Nat := do
  return m.nodeDepth ((← m.load n).link d)

/-- `L_DEPTH` -/
def lDepth (m : Memory K) (n : Nat) : Except Fault Nat := m.sideDepth .left n

/-- `R_DEPTH` -/
def rDepth (m : Memory K) (n : Nat) : Except Fault Nat := m.sideDepth .right n

/-- `CALC_DEPTH` -/
def calcDepth (m : Memory K) (n : Nat) : Except Fault Nat := do
  let l ← m.lDepth n
  let r ← m.rDepth n
  return (if l > r then l else r) + 1

/-- `n->depth = CALC_DEPTH(n)` -/
def updateDepth (m : Memory K) (n : Nat) : Except Fault (Memory K) := do
  m.setDepth n (← m.calcDepth n)

end Memory

/-! ### Rebalancing -/

/-- What `avl_check_balance` returns: -1, 0 or 1. -/
inductive Balance where
  | leftHeavy
  | even
  | rightHeavy
deriving DecidableEq, Repr

def avlCheckBalance (m : Memory K) (avlnode : Nat) : Except Fault Balance := do
  let d : Int := (← m.rDepth avlnode) - (← m.lDepth avlnode)
  return if d < -1 then .leftHeavy else if d > 1 then .rightHeavy else .even

/-- `superparent`: the cell that holds the link to `avlnode`. -/
def superparent (m : Memory K) (avlnode parent : Nat) : Cell :=
  if parent ≠ 0 then
    if avlnode = (m.node parent).left then .link .left parent else .link .right parent
  else .treehead

/-- The two rotations, simple and double, towards the side that is not heavy. -/
def rotate (d : Side) (m : Memory K) (c : Cell) (avlnode : Nat) : Except Fault (Memory K) := do
  let child := (← m.load avlnode).link d
  if (← m.sideDepth d child) ≥ (← m.sideDepth d.other child) then
    let m ← m.setLink d avlnode ((← m.load child).link d.other)
    let m ← m.setLink d.other child avlnode
    let m ← m.setCell c child
    let m ← m.updateDepth avlnode
    m.updateDepth child
  else
    let gchild := (← m.load child).link d.other
    let m ← m.setLink d avlnode ((← m.load gchild).link d.other)
    let m ← m.setLink d.other child ((← m.load gchild).link d)
    let m ← m.setLink d.other gchild avlnode
    let m ← m.setLink d gchild child
    let m ← m.setCell c gchild
    let m ← m.updateDepth avlnode
    let m ← m.updateDepth child
    m.updateDepth gchild

/-- `case -1` of `avl_rebalance` -/
def rotateRight (m : Memory K) (c : Cell) (avlnode : Nat) : Except Fault (Memory K) :=
  rotate .left m c avlnode

/-- `case 1` of `avl_rebalance` -/
def rotateLeft (m : Memory K) (c : Cell) (avlnode : Nat) : Except Fault (Memory K) :=
  rotate .right m c avlnode

/-- The block of `avl_rebalance` after the two recursive calls. -/
def rebalanceNode (m : Memory K) (avlnode parent : Nat) : Except Fault (Memory K) := do
  match ← avlCheckBalance m avlnode with
  | .leftHeavy => rotateRight m (superparent m avlnode parent) avlnode
  | .rightHeavy => rotateLeft m (superparent m avlnode parent) avlnode
  | .even => m.updateDepth avlnode

def avlRebalance : Nat → Memory K → Nat → Nat → Except Fault (Memory K)
  | 0, _, _, _ => .error .diverge
  | fuel + 1, m, avlnode, origParent =>
      m.load avlnode >>= fun n =>
      (if n.left ≠ 0 then avlRebalance fuel m n.left avlnode else .ok m) >>= fun m =>
      m.load avlnode >>= fun n =>
      (if n.right ≠ 0 then avlRebalance fuel m n.right avlnode else .ok m) >>= fun m =>
      rebalanceNode m avlnode origParent

/-! ### Search and insertion -/

/-- What `avl_search_closest` returns: the node found is to the right of the item (-1), equal to
    it or absent (0), or to its left (1). -/
inductive Found where
  | before
  | same
  | after
deriving DecidableEq, Repr

section Compare

variable (cmp : K → K → Int)

/-- The loop of `avl_search_closest`; it returns `*avlnode` and `*parent` too. -/
def searchLoop (m : Memory K) (item : K) : Nat → Nat → Nat → Except Fault (Found × Nat × Nat)
  | 0, _, _ => .error .diverge
  | fuel + 1, node, parent => do
      let n ← m.load node
      let c := cmp item n.item
      if c < 0 then
        if n.left ≠ 0 then searchLoop m item fuel n.left node else return (.before, node, parent)
      else if c > 0 then
        if n.right ≠ 0 then searchLoop m item fuel n.right node else return (.after, node, parent)
      else return (.same, node, parent)

def avlSearchClosest (fuel : Nat) (m : Memory K) (item : K) : Except Fault (Found × Nat × Nat) :=
  if m.treehead = 0 then .ok (.same, 0, 0) else searchLoop cmp m item fuel m.treehead 0

/-- `avl_insert_top`; the depth becomes 0 as the links do. -/
def avlInsertTop (m : Memory K) (newnode : Nat) : Except Fault (Memory K × Nat) := do
  let m ← { m with treehead := newnode }.store newnode fun n =>
    { n with left := 0, right := 0, depth := 0 }
  return (m, libNormal)

/-- Hang the new node on a side of `node` and rebalance. -/
def attach (d : Side) (fuel : Nat) (m : Memory K) (node parent newnode : Nat) :
    Except Fault (Memory K × Nat) := do
  let m ← m.setLink d node newnode
  let m ← avlRebalance fuel m node parent
  return (m, libNormal)

def avlInsertBefore (fuel : Nat) (m : Memory K) (node parent newnode : Nat) :
    Except Fault (Memory K × Nat) :=
  attach .left fuel m node parent newnode

def avlInsertAfter (fuel : Nat) (m : Memory K) (node parent newnode : Nat) :
    Except Fault (Memory K × Nat) :=
  attach .right fuel m node parent newnode

def avlInsertNode (fuel : Nat) (m : Memory K) (newNode : Nat) : Except Fault (Memory K × Nat) :=
  if m.treehead = 0 then avlInsertTop m newNode
  else do
    match ← avlSearchClosest cmp fuel m (← m.load newNode).item with
    | (.before, node, parent) => avlInsertBefore fuel m node parent newNode
    | (.after, node, parent) => avlInsertAfter fuel m node parent newNode
    | (.same, _, _) => return (m, libKeyalrins)

/-- A call of `lib$insert_tree`: its symbol, and what the user's allocation procedure answers: a
    status and, when the status is a success, a node for the symbol.  The links of that node are 0;
    its depth is whatever the procedure left there. -/
structure Call (K : Type) where
  symbol : K
  sts : Nat
  newNode : Nat
  depth : UInt16

/-- The status of the allocation is a success. -/
def Call.Allocates (c : Call K) : Prop := c.sts % 2 = 1

instance (c : Call K) : Decidable c.Allocates := inferInstanceAs (Decidable (_ = _))

/-- The memory as the allocation procedure leaves it. -/
def Memory.allocate (m : Memory K) (c : Call K) : Memory K :=
  { m with
    node := Function.update m.node c.newNode
      { left := 0, right := 0, depth := c.depth, item := c.symbol } }

/-- `lib$insert_tree` -/
def insertTree (fuel : Nat) (m : Memory K) (c : Call K) : Except Fault (Memory K × Nat) :=
  if c.Allocates then avlInsertNode cmp fuel (m.allocate c) c.newNode else .ok (m, libInsvirmem)

/-- `lib$lookup_tree`: the status and `*new_node`. -/
def lookupTree (fuel : Nat) (m : Memory K) (symbol : K) : Except Fault (Nat × Nat) := do
  match ← avlSearchClosest cmp fuel m symbol with
  | (.same, node, _) => return (libNormal, node)
  | (_, node, _) => return (libKeynotfou, node)

/-- `traverse_tree`; the action changes the user's data and returns a status. -/
def traverseNode (m : Memory K) (act : Nat → σ → Nat × σ) : Nat → Nat → σ → Except Fault (Nat × σ)
  | 0, _, _ => .error .diverge
  | fuel + 1, treehead, data =>
      if treehead = 0 then .ok (libNormal, data)
      else do
        let (sts, data) ← traverseNode m act fuel (m.node treehead).left data
        if sts % 2 = 0 then return (sts, data)
        let (sts, data) := act treehead data
        if sts % 2 = 0 then return (sts, data)
        traverseNode m act fuel (m.node treehead).right data

/-- `lib$traverse_tree` -/
def traverseTree (fuel : Nat) (m : Memory K) (act : Nat → σ → Nat × σ) (data : σ) :
    Except Fault (Nat × σ) :=
  traverseNode m act fuel m.treehead data

/-- A call of `lib$insert_tree` as a step of a run. -/
def insertStep (fuel : Nat) (c : Call K) (m : Memory K) : Except Fault (Memory K) := do
  return (← insertTree cmp fuel m c).1

/-- Calls of `lib$insert_tree` one after the other. -/
def insertAll (fuel : Nat) (calls : List (Call K)) (m : Memory K) : Except Fault (Memory K) :=
  Run.runs (insertStep cmp fuel) calls m

end Compare

end FreeVMS.Rtl.Tree
