import Pptk.Lib.Avl
import Pptk.Lib.PtrTree

/-!
# AVL trees (`avltree/avltree.c`)

As in the red-black tree, the nodes are linked in both directions and changed in
place: every function below is the C function on a root pointer and the nodes, store
by store. `none` is an abort or an access through a null pointer; the loops are
bounded by `fuel`.

The two sides of the tree are handled by mirrored code. Here they are one definition
with the side as a parameter; `Side.weight` is the sign of a balance on that side.
-/

namespace Pptk.Avltree

open Pptk.Lib

variable {ι : Type*} [DecidableEq ι]

/-- `struct avl_tree_node` (avltree.h:4-9). -/
@[ext] structure AvlTreeNode (ι : Type*) where
  balance : ℤ
  left : Option ι
  right : Option ι
  parent : Option ι

/-- `struct avl_tree` (avltree.h:13-17), without the comparison function, with the nodes that it
links. -/
@[ext] structure AvlTree (ι : Type*) where
  root : Option ι
  heap : ι → AvlTreeNode ι

namespace AvlTreeNode

/-- The child on side `d`. -/
def child (n : AvlTreeNode ι) (d : Side) : Option ι := d.pick n.left n.right

/-- The node with another child on side `d`. -/
def setChild (n : AvlTreeNode ι) (d : Side) (x : Option ι) : AvlTreeNode ι :=
  match d with
  | .left => { n with left := x }
  | .right => { n with right := x }

end AvlTreeNode

namespace AvlTree

/-! ## Stores -/

variable (t : AvlTree ι) (n : ι) (x : Option ι)

/-- `n->left = x` or `n->right = x` -/
def setChild (d : Side) : AvlTree ι :=
  { t with heap := Function.update t.heap n ((t.heap n).setChild d x) }

/-- `n->parent = x` -/
def setParent :
    AvlTree ι := { t with heap := Function.update t.heap n { t.heap n with parent := x } }

/-- `n->balance = b` -/
def setBalance (b : ℤ) : AvlTree ι :=
  { t with heap := Function.update t.heap n { t.heap n with balance := b } }

/-- `if (y) y->parent = x` -/
def setParentOf (t : AvlTree ι) (y x : Option ι) : AvlTree ι :=
  match y with
  | none => t
  | some n => t.setParent n x

/-! ## Rotations -/

/-- The links of a single rotation: `x` moves down to side `d` of its child `z`, whose subtree on
that side it takes over. -/
def rotateLinks (d : Side) (t : AvlTree ι) (x z : ι) : AvlTree ι :=
  let t23 := (t.heap z).child d
  let t := (t.setChild x t23 d.other).setParentOf t23 (some x)
  (t.setChild z (some x) d).setParent x (some z)

/-- A single rotation; the result is `z`. -/
def rotateSide (d : Side) (t : AvlTree ι) (x z : ι) : AvlTree ι × ι :=
  let t := t.rotateLinks d x z
  if (t.heap z).balance = 0 then ((t.setBalance x (-d.weight)).setBalance z d.weight, z)
  else ((t.setBalance x 0).setBalance z 0, z)

/-- `rotate_left` (avltree.c:199-222). -/
def rotateLeft (t : AvlTree ι) (x z : ι) : AvlTree ι × ι := t.rotateSide .left x z

/-- `rotate_right` (avltree.c:224-247). -/
def rotateRight (t : AvlTree ι) (x z : ι) : AvlTree ι × ι := t.rotateSide .right x z

/-- A double rotation: the child `y` of `z` on side `d` comes between `x` and `z`. The result is
`y`. -/
def rotateDouble (d : Side) (t : AvlTree ι) (x z : ι) : Option (AvlTree ι × ι) :=
  match (t.heap z).child d with
  | none => none
  | some y =>
    let t := (t.rotateLinks d.other z y).rotateLinks d x y
    let b := d.weight * (t.heap y).balance
    let t :=
      if b < 0 then (t.setBalance x d.weight).setBalance z 0
      else if b = 0 then (t.setBalance x 0).setBalance z 0
      else (t.setBalance x 0).setBalance z (-d.weight)
    some (t.setBalance y 0, y)

/-- `rotate_rightleft` (avltree.c:249-290). -/
def rotateRightleft (t : AvlTree ι) (x z : ι) : Option (AvlTree ι × ι) := t.rotateDouble .left x z

/-- `rotate_leftright` (avltree.c:292-333). -/
def rotateLeftright (t : AvlTree ι) (x z : ι) : Option (AvlTree ι × ι) := t.rotateDouble .right x z

/-- The rotation of both repair loops for a node `x` that is too low on side `d`: a double one if
its other child `z` is lower on the other side. -/
def rotateAt (d : Side) (t : AvlTree ι) (x z : ι) : Option (AvlTree ι × ι) :=
  let double := d.weight * (t.heap z).balance > 0
  match d with
  | .left => if double then t.rotateRightleft x z else some (t.rotateLeft x z)
  | .right => if double then t.rotateLeftright x z else some (t.rotateRight x z)

/-- The end of a rotation: `n` takes the place of `x` below `g` (avltree.c:394-411, 691-710). -/
def relink (t : AvlTree ι) (x n : ι) (g : Option ι) : AvlTree ι :=
  let t := t.setParent n g
  match g with
  | none => { t with root := some n }
  | some g =>
    if (t.heap g).left = some x then t.setChild g (some n) .left else t.setChild g (some n) .right

/-! ## Insertion -/

/-- The loop of `avl_tree_insert_repair` (avltree.c:335-414): the subtree at `z` has grown. -/
def insertRepair : ℕ → AvlTree ι → ι → Option (AvlTree ι)
  | 0, _, _ => none
  | fuel + 1, t, z =>
    match (t.heap z).parent with
    | none => some t
    | some x =>
      let d : Side := if (t.heap x).right = some z then .right else .left
      let b := d.weight * (t.heap x).balance
      if b > 0 then do
        let g := (t.heap x).parent
        let (t, n) ← t.rotateAt d.other x z
        some (t.relink x n g)
      else if b < 0 then some (t.setBalance x 0)
      else insertRepair fuel (t.setBalance x d.weight) x

/-- The loop of `avl_tree_insert`: down to a missing child, and the new node there
(avltree.c:428-453). -/
def insertLoop (cmp : ι → ι → ℤ) (node : ι) : ℕ → AvlTree ι → ι → Option (AvlTree ι)
  | 0, _, _ => none
  | fuel + 1, t, node2 =>
    let d : Side := if cmp node node2 < 0 then .left else .right
    match (t.heap node2).child d with
    | none =>
      insertRepair (fuel + 1) ((t.setChild node2 (some node) d).setParent node (some node2)) node
    | some x => insertLoop cmp node fuel t x

/-- `avl_tree_insert` (avltree.c:416-454). -/
def insert (cmp : ι → ι → ℤ) (fuel : ℕ) (t : AvlTree ι) (node : ι) : Option (AvlTree ι) :=
  let t := ((t.setBalance node 0).setChild node none .left).setChild node none .right
  match t.root with
  | none => some ({ t with root := some node }.setParent node none)
  | some node2 => insertLoop cmp node fuel t node2

/-! ## Deletion -/

/-- The link of `u` to `x` becomes a link to `y`, if there is a node `u`. -/
def replaceChild (t : AvlTree ι) (u : Option ι) (x y : ι) : Option (AvlTree ι) :=
  match u with
  | none => some t
  | some u =>
    if (t.heap u).left = some x then some (t.setChild u (some y) .left)
    else if (t.heap u).right = some x then some (t.setChild u (some y) .right)
    else none

/-- The links below two nodes of which `n2` is the child of `n1` on side `d`, in `avl_tree_exchange`
(avltree.c:474-491, 515-532). -/
def exchangeChildLinks (d : Side) (t : AvlTree ι) (n1 n2 : ι) : AvlTree ι :=
  let a := t.heap n1
  let b := t.heap n2
  let t := ((t.setChild n1 b.left .left).setChild n1 b.right .right).setParent n1 (some n2)
  let t := (t.setParentOf b.left (some n1)).setParentOf b.right (some n1)
  let t := t.setChild n2 (d.pick (some n1) a.left) .left
  let t := t.setChild n2 (d.pick a.right (some n1)) .right
  (t.setParent n2 a.parent).setParentOf (d.pick a.right a.left) (some n2)

/-- The first two branches of `avl_tree_exchange`: `n2` is the child of `n1` on side `d`
(avltree.c:472-553). -/
def exchangeChild (d : Side) (t : AvlTree ι) (n1 n2 : ι) : Option (AvlTree ι) := do
  let a := t.heap n1
  let b := t.heap n2
  let t ← (t.exchangeChildLinks d n1 n2).replaceChild a.parent n1 n2
  let t := { t with root := if a.parent = none then some n2 else t.root }
  some ((t.setBalance n1 b.balance).setBalance n2 a.balance)

/-- The links below two nodes with the fields `a` and `b`, neither of which is the parent of the
other, in `avl_tree_exchange` (avltree.c:591-612). -/
def exchangeLinks (t : AvlTree ι) (n1 n2 : ι) (a b : AvlTreeNode ι) : AvlTree ι :=
  let t := ((t.setParent n2 a.parent).setChild n2 a.left .left).setChild n2 a.right .right
  let t := ((t.setParent n1 b.parent).setChild n1 b.left .left).setChild n1 b.right .right
  let t := (t.setParentOf b.left (some n1)).setParentOf b.right (some n1)
  (t.setParentOf a.left (some n2)).setParentOf a.right (some n2)

/-- The last part of `avl_tree_exchange`: neither node is the parent of the other
(avltree.c:559-627). -/
def exchangeApart (t : AvlTree ι) (n1 n2 : ι) : Option (AvlTree ι) := do
  let a := t.heap n1
  let b := t.heap n2
  let t ← t.replaceChild a.parent n1 n2
  let t ← t.replaceChild b.parent n2 n1
  let t := t.exchangeLinks n1 n2 a b
  if (t.heap n1).parent = none ∧ (t.heap n2).parent = none then none
  else
    let t := { t with root := if (t.heap n1).parent = none then some n1 else t.root }
    let t := { t with root := if (t.heap n2).parent = none then some n2 else t.root }
    some ((t.setBalance n1 b.balance).setBalance n2 a.balance)

/-- The branches of `avl_tree_exchange`; `again` is its call with the nodes in the other order. -/
def exchangeOnce (again : Option (AvlTree ι)) (t : AvlTree ι) (n1 n2 : ι) : Option (AvlTree ι) :=
  if (t.heap n2).parent = some n1 ∧ (t.heap n1).left = some n2 then t.exchangeChild .left n1 n2
  else if (t.heap n2).parent = some n1 ∧ (t.heap n1).right = some n2 then
    t.exchangeChild .right n1 n2
  else if (t.heap n1).parent = some n2 then again
  else t.exchangeApart n1 n2

/-- `avl_tree_exchange` (avltree.c:461-627). It calls itself at most once, unless the two nodes are
each other's parent. -/
def exchange (t : AvlTree ι) (n1 n2 : ι) : Option (AvlTree ι) :=
  t.exchangeOnce (t.exchangeOnce none n2 n1) n1 n2

/-- The loop of `avl_tree_delete_repair` (avltree.c:629-712): the subtree at `n`, a child of `x`,
gets lower. -/
def deleteRepair : ℕ → AvlTree ι → ι → Option ι → Option (AvlTree ι)
  | _, t, _, none => some t
  | 0, _, _, some _ => none
  | fuel + 1, t, n, some x =>
    let g := (t.heap x).parent
    let d : Side := if (t.heap x).left = some n then .left else .right
    let b := d.weight * (t.heap x).balance
    if b < 0 then
      match (t.heap x).child d.other with
      | none => none
      | some z => do
        let bz := (t.heap z).balance
        let (t, n) ← t.rotateAt d x z
        let t := t.relink x n g
        if g ≠ none ∧ bz = 0 then some t else deleteRepair fuel t n g
    else if b = 0 then some (t.setBalance x (-d.weight))
    else deleteRepair fuel (t.setBalance x 0) x g

/-- The end of `avl_tree_delete_one_child`: `child` in the place of `node` (avltree.c:723-746). -/
def unlink (t : AvlTree ι) (node : ι) (child : Option ι) : AvlTree ι :=
  match (t.heap node).parent with
  | none => { t.setParentOf child none with root := child }
  | some p =>
    if (t.heap p).left = some node then (t.setChild p child .left).setParentOf child (some p)
    else if (t.heap p).right = some node then (t.setChild p child .right).setParentOf child (some p)
    else t

/-- `avl_tree_delete_one_child` (avltree.c:714-747). The balances are repaired while the node is
still in the tree. -/
def deleteOneChild (fuel : ℕ) (t : AvlTree ι) (node : ι) : Option (AvlTree ι) := do
  let t ← t.deleteRepair fuel node (t.heap node).parent
  let child := if (t.heap node).right = none then (t.heap node).left else (t.heap node).right
  some (t.unlink node child)

/-- The loops of `avl_tree_delete` (avltree.c:753-761) and `avl_tree_leftmost` that go down by the
left links. -/
def descendLeft (t : AvlTree ι) : ℕ → ι → Option ι
  | 0, _ => none
  | fuel + 1, node2 =>
    match (t.heap node2).left with
    | none => some node2
    | some x => t.descendLeft fuel x

/-- `avl_tree_leftmost` (avltree.c:119-134), `some none` for an empty tree. -/
def leftmost (fuel : ℕ) (t : AvlTree ι) : Option (Option ι) :=
  match t.root with
  | none => some none
  | some node => (t.descendLeft fuel node).map some

/-- `avl_tree_delete` (avltree.c:749-800). -/
def delete (fuel : ℕ) (t : AvlTree ι) (node : ι) : Option (AvlTree ι) :=
  match (t.heap node).left, (t.heap node).right with
  | some _, some r => do
    let node2 ← t.descendLeft fuel r
    let t ← t.exchange node node2
    t.deleteOneChild fuel node
  | _, _ => t.deleteOneChild fuel node

end AvlTree

end Pptk.Avltree
