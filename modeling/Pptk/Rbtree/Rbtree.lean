import Pptk.Lib.PtrTree
import Pptk.Lib.RbFix

/-!
# Red-black trees (`rbtree/rbtree.c`)

The tree links its nodes in both directions and is changed in place: every
function below is the C function on a root pointer and a heap of nodes, store by
store. `none` is an abort or an access through a null pointer. The repair loops
climb by parent pointers and are bounded by `fuel`.
-/

namespace Pptk.Rbtree

open Pptk.Lib

variable {ι : Type*} [DecidableEq ι]

/-- `struct rb_tree_nocmp` with the `struct rb_tree_node`s that it links (rbtree.h:6-17). -/
@[ext] structure RbTreeNocmp (ι : Type*) where
  root : Option ι
  heap : Heap ι

namespace RbTreeNocmp

/-! ## Stores -/

variable (t : RbTreeNocmp ι) (n k : ι) (x : Option ι) (b : Bool)

/-- `n->left = x` -/
def setLeft :
    RbTreeNocmp ι := { t with heap := Function.update t.heap n { t.heap n with left := x } }

/-- `n->right = x` -/
def setRight : RbTreeNocmp ι :=
  { t with heap := Function.update t.heap n { t.heap n with right := x } }

/-- `n->parent = x` -/
def setParent : RbTreeNocmp ι :=
  { t with heap := Function.update t.heap n { t.heap n with parent := x } }

/-- `n->is_black = b` -/
def setIsBlack : RbTreeNocmp ι := { t with heap := paint t.heap n b }

/-- `if (y) y->parent = x` -/
def setParentOf (t : RbTreeNocmp ι) (y x : Option ι) : RbTreeNocmp ι :=
  match y with
  | none => t
  | some n => t.setParent n x

@[simp] theorem setLeft_root : (t.setLeft n x).root = t.root := rfl

@[simp] theorem setRight_root : (t.setRight n x).root = t.root := rfl

@[simp] theorem setParent_root : (t.setParent n x).root = t.root := rfl

@[simp] theorem setIsBlack_root : (t.setIsBlack n b).root = t.root := rfl

@[simp] theorem setParentOf_root (y : Option ι) : (t.setParentOf y x).root = t.root := by
  cases y <;> rfl

section Fields

variable (y : Option ι)

/-- The only pointer that `setLeft` writes. -/
@[simp] theorem setLeft_left :
    ((t.setLeft n x).heap k).left = if k = n then x else (t.heap k).left := by
  by_cases h : k = n <;> simp [setLeft, h]

@[simp] theorem setLeft_right : ((t.setLeft n x).heap k).right = (t.heap k).right := by
  by_cases h : k = n <;> simp [setLeft, h]

@[simp] theorem setLeft_parent : ((t.setLeft n x).heap k).parent = (t.heap k).parent := by
  by_cases h : k = n <;> simp [setLeft, h]

@[simp] theorem setLeft_black : ((t.setLeft n x).heap k).black = (t.heap k).black := by
  by_cases h : k = n <;> simp [setLeft, h]

@[simp] theorem setRight_left : ((t.setRight n x).heap k).left = (t.heap k).left := by
  by_cases h : k = n <;> simp [setRight, h]

/-- The only pointer that `setRight` writes. -/
@[simp] theorem setRight_right :
    ((t.setRight n x).heap k).right = if k = n then x else (t.heap k).right := by
  by_cases h : k = n <;> simp [setRight, h]

@[simp] theorem setRight_parent : ((t.setRight n x).heap k).parent = (t.heap k).parent := by
  by_cases h : k = n <;> simp [setRight, h]

@[simp] theorem setRight_black : ((t.setRight n x).heap k).black = (t.heap k).black := by
  by_cases h : k = n <;> simp [setRight, h]

@[simp] theorem setParent_left : ((t.setParent n x).heap k).left = (t.heap k).left := by
  by_cases h : k = n <;> simp [setParent, h]

@[simp] theorem setParent_right : ((t.setParent n x).heap k).right = (t.heap k).right := by
  by_cases h : k = n <;> simp [setParent, h]

/-- The only pointer that `setParent` writes. -/
@[simp] theorem setParent_parent :
    ((t.setParent n x).heap k).parent = if k = n then x else (t.heap k).parent := by
  by_cases h : k = n <;> simp [setParent, h]

@[simp] theorem setParent_black : ((t.setParent n x).heap k).black = (t.heap k).black := by
  by_cases h : k = n <;> simp [setParent, h]

@[simp] theorem setIsBlack_left : ((t.setIsBlack n b).heap k).left = (t.heap k).left := by
  by_cases h : k = n <;> simp [setIsBlack, paint, h]

@[simp] theorem setIsBlack_right : ((t.setIsBlack n b).heap k).right = (t.heap k).right := by
  by_cases h : k = n <;> simp [setIsBlack, paint, h]

@[simp] theorem setIsBlack_parent : ((t.setIsBlack n b).heap k).parent = (t.heap k).parent := by
  by_cases h : k = n <;> simp [setIsBlack, paint, h]

/-- The only colour that `setIsBlack` writes. -/
@[simp] theorem setIsBlack_black :
    ((t.setIsBlack n b).heap k).black = if k = n then b else (t.heap k).black := by
  by_cases h : k = n <;> simp [setIsBlack, paint, h]

@[simp] theorem setParentOf_left : ((t.setParentOf y x).heap k).left = (t.heap k).left := by
  cases y <;> simp [setParentOf]

@[simp] theorem setParentOf_right : ((t.setParentOf y x).heap k).right = (t.heap k).right := by
  cases y <;> simp [setParentOf]

@[simp] theorem setParentOf_black : ((t.setParentOf y x).heap k).black = (t.heap k).black := by
  cases y <;> simp [setParentOf]

/-- The only pointer that `setParentOf` writes. -/
@[simp] theorem setParentOf_parent :
    ((t.setParentOf y x).heap k).parent = if y = some k then x else (t.heap k).parent := by
  cases y with
  | none => simp [setParentOf]
  | some n => simp [setParentOf, eq_comm]

end Fields

/-! ## Rotations -/

/-- The end of both rotations: `q` takes the place of `p` below `parent`, or becomes the root
(rbtree.c:207-226). -/
def rotateLink (t : RbTreeNocmp ι) (parent : Option ι) (p q : ι) : Option (RbTreeNocmp ι) :=
  match parent with
  | none => some { t.setParent q none with root := some q }
  | some u =>
    if (t.heap u).left = some p then some ((t.setLeft u (some q)).setParent q (some u))
    else if (t.heap u).right = some p then some ((t.setRight u (some q)).setParent q (some u))
    else none

/-- The stores of `rotate_left` before the link from above (rbtree.c:184-206). -/
def rotateLeftLinks (t : RbTreeNocmp ι) (p q : ι) : RbTreeNocmp ι :=
  let a := (t.heap p).left
  let b := (t.heap q).left
  let c := (t.heap q).right
  let t := (t.setLeft p a).setParentOf a (some p)
  let t := (t.setRight p b).setParentOf b (some p)
  let t := (t.setLeft q (some p)).setParent p (some q)
  (t.setRight q c).setParentOf c (some q)

/-- `rotate_left` (rbtree.c:182-227). -/
def rotateLeft (t : RbTreeNocmp ι) (p : ι) : Option (RbTreeNocmp ι) :=
  match (t.heap p).right with
  | none => none
  | some q => (t.rotateLeftLinks p q).rotateLink (t.heap p).parent p q

/-- The stores of `rotate_right` before the link from above (rbtree.c:231-253). -/
def rotateRightLinks (t : RbTreeNocmp ι) (q p : ι) : RbTreeNocmp ι :=
  let a := (t.heap p).left
  let b := (t.heap p).right
  let c := (t.heap q).right
  let t := (t.setLeft p a).setParentOf a (some p)
  let t := (t.setRight p (some q)).setParent q (some p)
  let t := (t.setLeft q b).setParentOf b (some q)
  (t.setRight q c).setParentOf c (some q)

/-- `rotate_right` (rbtree.c:229-274). -/
def rotateRight (t : RbTreeNocmp ι) (q : ι) : Option (RbTreeNocmp ι) :=
  match (t.heap q).left with
  | none => none
  | some p => (t.rotateRightLinks q p).rotateLink (t.heap q).parent q p

/-- The rotation that moves `p` down on side `d`. -/
def rotateSide (d : Side) (t : RbTreeNocmp ι) (p : ι) : Option (RbTreeNocmp ι) :=
  match d with
  | .left => t.rotateLeft p
  | .right => t.rotateRight p

/-! ## Insertion -/

/-- `sibling_parent` (rbtree.c:155-169). -/
def siblingParent (t : RbTreeNocmp ι) (node p : Option ι) : Option ι :=
  match p with
  | none => none
  | some p => if node = (t.heap p).left then (t.heap p).right else (t.heap p).left

/-- `sibling` (rbtree.c:138-153). -/
def sibling (t : RbTreeNocmp ι) (node : ι) : Option ι :=
  t.siblingParent (some node) (t.heap node).parent

/-- `uncle` (rbtree.c:171-180), for a node with a parent. -/
def uncle (t : RbTreeNocmp ι) (node : ι) : Option ι :=
  match (t.heap node).parent with
  | none => none
  | some p =>
    match (t.heap p).parent with
    | none => none
    | some _ => t.sibling p

/-- A node that is there and red: `x && x->is_black == 0`. -/
def isRed (t : RbTreeNocmp ι) (x : Option ι) : Bool :=
  match x with
  | none => false
  | some x => !(t.heap x).black

/-- The first rotation of `rb_tree_nocmp_insert_repair`, for a node between its parent and its
grandparent, and the node that is then the lower of the two (rbtree.c:298-309). -/
def insertRotateInner (t : RbTreeNocmp ι) (node p g : ι) : Option (RbTreeNocmp ι × ι) :=
  if (t.heap g).left.any fun x => (t.heap x).right = some node then do
    let t ← t.rotateLeft p
    let node ← (t.heap node).left
    pure (t, node)
  else if (t.heap g).right.any fun x => (t.heap x).left = some node then do
    let t ← t.rotateRight p
    let node ← (t.heap node).right
    pure (t, node)
  else some (t, node)

/-- The second rotation of `rb_tree_nocmp_insert_repair`, at the grandparent (rbtree.c:310-324). -/
def insertRotateOuter (t : RbTreeNocmp ι) (node : ι) : Option (RbTreeNocmp ι) := do
  let p ← (t.heap node).parent
  let g ← (t.heap p).parent
  let t ← (if some node = (t.heap p).left then t.rotateRight g else t.rotateLeft g)
  some ((t.setIsBlack p true).setIsBlack g false)

/-- The last case of `rb_tree_nocmp_insert_repair`: a red parent whose sibling is not red
(rbtree.c:293-325). -/
def insertRotate (t : RbTreeNocmp ι) (node : ι) : Option (RbTreeNocmp ι) := do
  let p ← (t.heap node).parent
  let g ← (t.heap p).parent
  let (t, node) ← t.insertRotateInner node p g
  t.insertRotateOuter node

/-- `rb_tree_nocmp_insert_repair` (rbtree.c:276-326). -/
def insertRepair : ℕ → RbTreeNocmp ι → ι → Option (RbTreeNocmp ι)
  | 0, _, _ => none
  | fuel + 1, t, node =>
    match (t.heap node).parent with
    | none => some (t.setIsBlack node true)
    | some p =>
      if (t.heap p).black then some t
      else if t.isRed (t.uncle node) then do
        let u ← t.uncle node
        let g ← (t.heap p).parent
        insertRepair fuel (((t.setIsBlack p true).setIsBlack u true).setIsBlack g false) g
      else t.insertRotate node

/-- The loop of `rb_tree_insert`: down to a missing child, and the new node there
(rbtree.c:341-366). -/
def insertLoop (cmp : ι → ι → Option ℤ) (node : ι) : ℕ → RbTreeNocmp ι → ι → Option (RbTreeNocmp ι)
  | 0, _, _ => none
  | fuel + 1, t, node2 =>
    match cmp node node2 with
    | none => none
    | some c =>
      if c < 0 then
        match (t.heap node2).left with
        | none =>
          insertRepair (fuel + 1) ((t.setLeft node2 (some node)).setParent node (some node2)) node
        | some x => insertLoop cmp node fuel t x
      else
        match (t.heap node2).right with
        | none =>
          insertRepair (fuel + 1) ((t.setRight node2 (some node)).setParent node (some node2)) node
        | some x => insertLoop cmp node fuel t x

/-- `rb_tree_insert` (rbtree.c:328-367). -/
def insert (cmp : ι → ι → Option ℤ) (fuel : ℕ) (t : RbTreeNocmp ι) (node : ι) :
    Option (RbTreeNocmp ι) :=
  let t := ((t.setIsBlack node false).setLeft node none).setRight node none
  match t.root with
  | none => insertRepair fuel ({ t with root := some node }.setParent node none) node
  | some node2 => insertLoop cmp node fuel t node2

/-! ## Deletion -/

/-- `rb_tree_delete_case6` (rbtree.c:375-392). -/
def deleteCase6 (t : RbTreeNocmp ι) (n : Option ι) (parent : ι) : Option (RbTreeNocmp ι) := do
  let s ← t.siblingParent n (some parent)
  let t := t.setIsBlack s (t.heap parent).black
  let t := t.setIsBlack parent true
  if n = (t.heap parent).left then do
    let r ← (t.heap s).right
    (t.setIsBlack r true).rotateLeft parent
  else do
    let l ← (t.heap s).left
    (t.setIsBlack l true).rotateRight parent

/-- The rotation of `rb_tree_delete_case5`, before case 6. -/
def deleteRotate5 (t : RbTreeNocmp ι) (n : Option ι) (parent : ι) : Option (RbTreeNocmp ι) := do
  let s ← t.siblingParent n (some parent)
  if (t.heap s).black then
    if n = (t.heap parent).left && !t.isRed (t.heap s).right && t.isRed (t.heap s).left then do
      let l ← (t.heap s).left
      ((t.setIsBlack s false).setIsBlack l true).rotateRight s
    else if n = (t.heap parent).right && !t.isRed (t.heap s).left && t.isRed (t.heap s).right then
      do
      let r ← (t.heap s).right
      ((t.setIsBlack s false).setIsBlack r true).rotateLeft s
    else some t
  else some t

/-- `rb_tree_delete_case5` (rbtree.c:394-418). -/
def deleteCase5 (t : RbTreeNocmp ι) (n : Option ι) (parent : ι) : Option (RbTreeNocmp ι) := do
  (← t.deleteRotate5 n parent).deleteCase6 n parent

/-- `rb_tree_delete_case4` (rbtree.c:420-435). A null sibling is dereferenced on both ways. -/
def deleteCase4 (t : RbTreeNocmp ι) (n : Option ι) (parent : ι) : Option (RbTreeNocmp ι) := do
  let s ← t.siblingParent n (some parent)
  if !(t.heap parent).black && (t.heap s).black && !t.isRed (t.heap s).left &&
      !t.isRed (t.heap s).right then
    some ((t.setIsBlack s false).setIsBlack parent true)
  else t.deleteCase5 n parent

/-- `rb_tree_delete_case3` (rbtree.c:439-455); `case1` is `rb_tree_delete_case1`. -/
def deleteCase3 (case1 : RbTreeNocmp ι → Option ι → Option ι → Option (RbTreeNocmp ι))
    (t : RbTreeNocmp ι) (n : Option ι) (parent : ι) : Option (RbTreeNocmp ι) := do
  let s ← t.siblingParent n (some parent)
  if (t.heap parent).black && (t.heap s).black && !t.isRed (t.heap s).left &&
      !t.isRed (t.heap s).right then
    case1 (t.setIsBlack s false) (some parent) (t.heap parent).parent
  else t.deleteCase4 n parent

/-- The rotation of `rb_tree_delete_case2`, before case 3. -/
def deleteRotate2 (t : RbTreeNocmp ι) (n : Option ι) (parent : ι) : Option (RbTreeNocmp ι) :=
  match t.siblingParent n (some parent) with
  | none => some t
  | some s =>
    if (t.heap s).black then some t
    else
      let t := (t.setIsBlack parent false).setIsBlack s true
      if n = (t.heap parent).left then t.rotateLeft parent else t.rotateRight parent

/-- `rb_tree_delete_case2` (rbtree.c:457-475). -/
def deleteCase2 (case1 : RbTreeNocmp ι → Option ι → Option ι → Option (RbTreeNocmp ι))
    (t : RbTreeNocmp ι) (n : Option ι) (parent : ι) : Option (RbTreeNocmp ι) := do
  (← t.deleteRotate2 n parent).deleteCase3 case1 n parent

/-- `rb_tree_delete_case1` (rbtree.c:477-484). -/
def deleteCase1 : ℕ → RbTreeNocmp ι → Option ι → Option ι → Option (RbTreeNocmp ι)
  | 0, _, _, _ => none
  | fuel + 1, t, n, parent =>
    match parent with
    | none => some t
    | some p => t.deleteCase2 (deleteCase1 fuel) n p

/-- The link of `u` to `x` becomes a link to `y`, if there is a node `u`. -/
def replaceChild (t : RbTreeNocmp ι) (u : Option ι) (x y : ι) : Option (RbTreeNocmp ι) :=
  match u with
  | none => some t
  | some u =>
    if (t.heap u).left = some x then some (t.setLeft u (some y))
    else if (t.heap u).right = some x then some (t.setRight u (some y))
    else none

/-- The links below two nodes of which `n2` is the child of `n1` on side `d`, in `rb_tree_exchange`
(rbtree.c:498-515, 539-556). -/
def exchangeChildLinks (d : Side) (t : RbTreeNocmp ι) (n1 n2 : ι) : RbTreeNocmp ι :=
  let a := t.heap n1
  let b := t.heap n2
  let t := ((t.setLeft n1 b.left).setRight n1 b.right).setParent n1 (some n2)
  let t := (t.setParentOf b.left (some n1)).setParentOf b.right (some n1)
  let t := t.setLeft n2 (d.pick (some n1) a.left)
  let t := t.setRight n2 (d.pick a.right (some n1))
  (t.setParent n2 a.parent).setParentOf (d.pick a.right a.left) (some n2)

/-- The first two branches of `rb_tree_exchange`: `n2` is the child of `n1` on side `d`
(rbtree.c:496-577). -/
def exchangeChild (d : Side) (t : RbTreeNocmp ι) (n1 n2 : ι) : Option (RbTreeNocmp ι) := do
  let a := t.heap n1
  let b := t.heap n2
  let t ← (t.exchangeChildLinks d n1 n2).replaceChild a.parent n1 n2
  let t := { t with root := if a.parent = none then some n2 else t.root }
  some ((t.setIsBlack n1 b.black).setIsBlack n2 a.black)

/-- The links below two nodes with the links `a` and `b`, neither of which is the parent of the
other, in `rb_tree_exchange` (rbtree.c:617-638). -/
def exchangeLinks (t : RbTreeNocmp ι) (n1 n2 : ι) (a b : PNode ι) : RbTreeNocmp ι :=
  let t := ((t.setParent n2 a.parent).setLeft n2 a.left).setRight n2 a.right
  let t := ((t.setParent n1 b.parent).setLeft n1 b.left).setRight n1 b.right
  let t := (t.setParentOf b.left (some n1)).setParentOf b.right (some n1)
  (t.setParentOf a.left (some n2)).setParentOf a.right (some n2)

/-- The last part of `rb_tree_exchange`: neither node is the parent of the other (rbtree.c:583-653).
-/
def exchangeApart (t : RbTreeNocmp ι) (n1 n2 : ι) : Option (RbTreeNocmp ι) := do
  let a := t.heap n1
  let b := t.heap n2
  let t ← t.replaceChild a.parent n1 n2
  let t ← t.replaceChild b.parent n2 n1
  let t := t.exchangeLinks n1 n2 a b
  if (t.heap n1).parent = none ∧ (t.heap n2).parent = none then none
  else
    let t := { t with root := if (t.heap n1).parent = none then some n1 else t.root }
    let t := { t with root := if (t.heap n2).parent = none then some n2 else t.root }
    some ((t.setIsBlack n1 b.black).setIsBlack n2 a.black)

/-- The branches of `rb_tree_exchange`; `again` is its call with the nodes in the other order. -/
def exchangeOnce (again : Option (RbTreeNocmp ι)) (t : RbTreeNocmp ι) (n1 n2 : ι) :
    Option (RbTreeNocmp ι) :=
  if (t.heap n2).parent = some n1 ∧ (t.heap n1).left = some n2 then t.exchangeChild .left n1 n2
  else if (t.heap n2).parent = some n1 ∧ (t.heap n1).right = some n2 then
    t.exchangeChild .right n1 n2
  else if (t.heap n1).parent = some n2 then again
  else t.exchangeApart n1 n2

/-- `rb_tree_exchange` (rbtree.c:486-654). It calls itself at most once, unless the two nodes are
each other's parent. -/
def exchange (t : RbTreeNocmp ι) (n1 n2 : ι) : Option (RbTreeNocmp ι) :=
  t.exchangeOnce (t.exchangeOnce none n2 n1) n1 n2

/-- The first part of `rb_tree_delete_one_child`: `child` in the place of `node` (rbtree.c:710-733).
-/
def unlink (t : RbTreeNocmp ι) (node : ι) (child : Option ι) : RbTreeNocmp ι :=
  match (t.heap node).parent with
  | none => { t.setParentOf child none with root := child }
  | some p =>
    if (t.heap p).left = some node then (t.setLeft p child).setParentOf child (some p)
    else if (t.heap p).right = some node then (t.setRight p child).setParentOf child (some p)
    else t

/-- `rb_tree_delete_one_child` (rbtree.c:703-749). -/
def deleteOneChild (fuel : ℕ) (t : RbTreeNocmp ι) (node : ι) : Option (RbTreeNocmp ι) :=
  let child := if (t.heap node).right = none then (t.heap node).left else (t.heap node).right
  let t := t.unlink node child
  if (t.heap node).black then
    if t.isRed child then child.map fun c => t.setIsBlack c true
    else deleteCase1 fuel t child (t.heap node).parent
  else some t

/-- The loops that go down by the links on one side: of `rb_tree_nocmp_leftmost`,
`rb_tree_nocmp_rightmost` and `rb_tree_nocmp_delete`. -/
def descend (d : Side) (t : RbTreeNocmp ι) : ℕ → ι → Option ι
  | 0, _ => none
  | fuel + 1, node =>
    match (t.heap node).child d with
    | none => some node
    | some x => t.descend d fuel x

/-- The node at one end of the tree, `some none` for an empty tree. -/
def extreme (d : Side) (fuel : ℕ) (t : RbTreeNocmp ι) : Option (Option ι) :=
  match t.root with
  | none => some none
  | some node => (t.descend d fuel node).map some

/-- `rb_tree_nocmp_leftmost` (rbtree.c:104-119). -/
def leftmost (fuel : ℕ) (t : RbTreeNocmp ι) : Option (Option ι) := t.extreme .left fuel

/-- `rb_tree_nocmp_rightmost` (rbtree.c:121-136). -/
def rightmost (fuel : ℕ) (t : RbTreeNocmp ι) : Option (Option ι) := t.extreme .right fuel

/-- `rb_tree_nocmp_delete` (rbtree.c:751-848). -/
def delete (fuel : ℕ) (t : RbTreeNocmp ι) (node : ι) : Option (RbTreeNocmp ι) :=
  match (t.heap node).left, (t.heap node).right with
  | some l, some _ => do
    let node2 ← t.descend .right fuel l
    let t ← t.exchange node node2
    t.deleteOneChild fuel node
  | _, _ => t.deleteOneChild fuel node

end RbTreeNocmp

end Pptk.Rbtree
