import Pptk.Ipfrag.Buffer
import Pptk.Lib.CTree

/-!
# The in-buffer red-black tree engine (`ipfrag/iprb815.c`)

The holes are the nodes of a red-black tree whose descriptors lie in the packet
buffer, each at the first byte of its hole. A link is the number of an 8-byte block
with a valid bit; what is left in the block number of an invalid link is still
there, and two places of the code look at it.

Every function below is the C function on the bytes of the buffer, store by store.
`none` is an `abort()`. The loops and the two recursive functions are bounded by
`fuel`. A local `struct rb815hole` that is not initialised is the zero descriptor.

The bit-fields of a descriptor are allocated from the low bit of each 16-bit word,
on a little-endian host; nothing else observes the layout.
-/

namespace Pptk.Ipfrag

open Pptk.Lib Pptk.Iphdr

/-! ## Descriptors -/

/-- The location that stands for no hole, `RB815_HOLE_NULL` (iprb815.h:25). -/
abbrev rb815Null : ℕ := 65535

instance neZero_8192 : NeZero 8192 := ⟨by decide⟩

/-- The fields `…_div_8` and `…_valid` of one link. -/
structure Link815 where
  div8 : Fin 8192
  valid : Bool
deriving DecidableEq

namespace Link815

/-- `div_8 * 8`. -/
def block (l : Link815) : ℕ := l.div8 * 8

/-- `valid ? div_8 * 8 : RB815_HOLE_NULL`. -/
def loc (l : Link815) : ℕ := if l.valid then l.block else rb815Null

/-- `valid && div_8 * 8 == loc`. -/
def PointsTo (l : Link815) (loc : ℕ) : Prop := l.valid = true ∧ l.block = loc

instance (l : Link815) (loc : ℕ) : Decidable (l.PointsTo loc) := inferInstanceAs (Decidable (_ ∧ _))

/-- `valid = 1; div_8 = loc / 8`. -/
def toLoc (loc : ℕ) : Link815 := ⟨Fin.ofNat 8192 (loc / 8), true⟩

/-- `valid = (loc != RB815_HOLE_NULL); div_8 = loc / 8`. -/
def ofLoc (loc : ℕ) : Link815 := ⟨Fin.ofNat 8192 (loc / 8), loc ≠ rb815Null⟩

/-- `if (loc != RB815_HOLE_NULL) { valid = 1; div_8 = loc / 8; } else valid = 0`. -/
def relink (l : Link815) (loc : ℕ) : Link815 :=
  if loc = rb815Null then { l with valid := false } else toLoc loc

/-- The link in the low 14 bits of a 16-bit word. -/
def ofWord (w : ℕ) : Link815 := ⟨Fin.ofNat 8192 w, w / 8192 % 2 = 1⟩

/-- The low 14 bits of the word of a link. -/
def toWord (l : Link815) : ℕ := l.div8 + 8192 * l.valid.toNat

end Link815

/-- `struct rb815hole` (iprb815.h:11-23), without the spare bits. -/
structure Rb815hole where
  len : Fin 65536
  parent : Link815
  left : Link815
  right : Link815
  isBlack : Bool
deriving DecidableEq

namespace Rb815hole

/-- `struct rb815hole hole = {}`. -/
def zero : Rb815hole := ⟨0, ⟨0, false⟩, ⟨0, false⟩, ⟨0, false⟩, false⟩

/-- The link on side `d`. -/
def child (h : Rb815hole) (d : Side) : Link815 := d.pick h.left h.right

/-- The descriptor with another link on side `d`. -/
def setChild (h : Rb815hole) (d : Side) (l : Link815) : Rb815hole :=
  match d with
  | .left => { h with left := l }
  | .right => { h with right := l }

/-- The link of a parent to `loc` becomes a link to `new`; `none` is the `abort()` when there is no
link to `loc`. -/
def replaceChild (parent : Rb815hole) (loc new : ℕ) : Option Rb815hole :=
  if parent.left.PointsTo loc then some { parent with left := .toLoc new }
  else if parent.right.PointsTo loc then some { parent with right := .toLoc new }
  else none

/-- The four 16-bit words of a descriptor. -/
def words (h : Rb815hole) : List ℕ :=
  [h.len, h.parent.toWord, h.left.toWord, h.right.toWord + 16384 * h.isBlack.toNat]

end Rb815hole

/-- `struct rb815ctx` (iprb815.h:27-34). -/
structure Rb815ctx extends PktBuf where
  rootHole : ℕ

namespace Rb815ctx

/-- `memcpy(&hole, &ctx->pkt[loc], sizeof(hole))`. -/
def loadHole (ctx : Rb815ctx) (loc : ℕ) : Rb815hole where
  len := Fin.ofNat 65536 (word16 ctx.pkt loc)
  parent := .ofWord (word16 ctx.pkt (loc + 2))
  left := .ofWord (word16 ctx.pkt (loc + 4))
  right := .ofWord (word16 ctx.pkt (loc + 6))
  isBlack := word16 ctx.pkt (loc + 6) / 16384 % 2 = 1

/-- `memcpy(&ctx->pkt[loc], &hole, sizeof(hole))`. -/
def storeHole (ctx : Rb815ctx) (loc : ℕ) (hole : Rb815hole) : Rb815ctx :=
  { ctx with toPktBuf := ctx.store loc (structMem fun k => hole.words.getD k 0) 0 8 }

/-- A load that is left out at `RB815_HOLE_NULL`. -/
def loadIf (ctx : Rb815ctx) (loc : ℕ) : Rb815hole :=
  if loc = rb815Null then .zero else ctx.loadHole loc

/-- A store that is left out at `RB815_HOLE_NULL`. -/
def storeIf (ctx : Rb815ctx) (loc : ℕ) (hole : Rb815hole) : Rb815ctx :=
  if loc = rb815Null then ctx else ctx.storeHole loc hole

/-! ## Siblings and rotations -/

/-- `get_sibling_loc_parent` (iprb815.c:89-110). -/
def getSiblingLocParent (ctx : Rb815ctx) (loc parentLoc : ℕ) : Option ℕ :=
  if parentLoc = rb815Null then some rb815Null
  else
    let hole := ctx.loadHole parentLoc
    if hole.left.PointsTo loc then some hole.right.loc
    else if hole.right.PointsTo loc then some hole.left.loc
    else none

/-- `get_sibling_loc` (iprb815.c:67-87). -/
def getSiblingLoc (ctx : Rb815ctx) (loc : ℕ) : Option ℕ :=
  let hole := ctx.loadHole loc
  if hole.parent.valid = false then some rb815Null
  else ctx.getSiblingLocParent loc hole.parent.block

/-- `get_uncle_loc` (iprb815.c:594-603). -/
def getUncleLoc (ctx : Rb815ctx) (loc : ℕ) : Option ℕ :=
  let hole := ctx.loadHole loc
  if hole.parent.valid = false then some rb815Null
  else ctx.getSiblingLoc hole.parent.block

/-- The end of both rotations: `qLoc` takes the place of `loc` below the parent, or becomes the
root. Returns the root and the two descriptors (iprb815.c:673-695, 788-817). -/
def rotateAbove (ctx : Rb815ctx) (loc qLoc parentLoc : ℕ) (q parent : Rb815hole) :
    Option (ℕ × Rb815hole × Rb815hole) :=
  if parentLoc = rb815Null then
    some (qLoc, { q with parent := { q.parent with valid := false } }, parent)
  else do
    let parent ← parent.replaceChild loc qLoc
    some (ctx.rootHole, { q with parent := .toLoc parentLoc }, parent)

/-- The rotation that moves `loc` down on side `d`. The three subtrees are stored from left to
right. -/
def rotate (d : Side) (ctx : Rb815ctx) (loc : ℕ) : Option Rb815ctx :=
  let hole := ctx.loadHole loc
  let parentLoc := hole.parent.loc
  let parent := ctx.loadIf parentLoc
  if (hole.child d.other).valid = false then none
  else do
    let qLoc := (hole.child d.other).block
    let q := ctx.loadHole qLoc
    let nearLoc := (hole.child d).loc
    let innerLoc := (q.child d).loc
    let farLoc := (q.child d.other).loc
    let near := { ctx.loadIf nearLoc with parent := .toLoc loc }
    let inner := { ctx.loadIf innerLoc with parent := .toLoc loc }
    let far := { ctx.loadIf farLoc with parent := .toLoc qLoc }
    let hole := hole.setChild d ((hole.child d).relink nearLoc)
    let hole := hole.setChild d.other ((hole.child d.other).relink innerLoc)
    let q := q.setChild d (.toLoc loc)
    let hole := { hole with parent := .toLoc qLoc }
    let q := q.setChild d.other ((q.child d.other).relink farLoc)
    let (rootHole, q, parent) ← ctx.rotateAbove loc qLoc parentLoc q parent
    let ctx := { ctx with rootHole := rootHole }
    let ctx := ctx.storeIf (d.pick nearLoc farLoc) (d.pick near far)
    let ctx := ctx.storeIf innerLoc inner
    let ctx := ctx.storeIf (d.pick farLoc nearLoc) (d.pick far near)
    some (((ctx.storeHole loc hole).storeHole qLoc q).storeIf parentLoc parent)

/-- `rotate_left` (iprb815.c:605-714). -/
def rotateLeft (ctx : Rb815ctx) (loc : ℕ) : Option Rb815ctx := ctx.rotate .left loc

/-- `rotate_right` (iprb815.c:716-835). -/
def rotateRight (ctx : Rb815ctx) (loc : ℕ) : Option Rb815ctx := ctx.rotate .right loc

/-! ## Insertion -/

/-- The first rotation of `rb815_tree_insert_repair`, for a node between its parent and its
grandparent, and the node that is then the lower of the two (iprb815.c:883-922). The links of the
children of the grandparent are compared without their valid bits. -/
def insertRotateInner (ctx : Rb815ctx) (loc parentLoc grandparentLoc : ℕ) : Option (Rb815ctx × ℕ) :=
  let grandparent := ctx.loadHole grandparentLoc
  let gpl := ctx.loadIf grandparent.left.loc
  let gpr := ctx.loadIf grandparent.right.loc
  if grandparent.left.valid = true ∧ loc = gpl.right.block then do
    let ctx ← ctx.rotateLeft parentLoc
    let hole := ctx.loadHole loc
    if hole.left.valid then some (ctx, hole.left.block) else none
  else if grandparent.right.valid = true ∧ loc = gpr.left.block then do
    let ctx ← ctx.rotateRight parentLoc
    let hole := ctx.loadHole loc
    if hole.right.valid then some (ctx, hole.right.block) else none
  else some (ctx, loc)

/-- The second rotation of `rb815_tree_insert_repair`, at the grandparent (iprb815.c:923-951). -/
def insertRotateOuter (ctx : Rb815ctx) (loc : ℕ) : Option Rb815ctx :=
  let hole := ctx.loadHole loc
  if hole.parent.valid = false then none
  else
    let parentLoc := hole.parent.block
    let parent := ctx.loadHole parentLoc
    if parent.parent.valid = false then none
    else do
      let grandparentLoc := parent.parent.block
      let ctx ← (
        if parent.left.PointsTo loc then ctx.rotateRight grandparentLoc
        else ctx.rotateLeft grandparentLoc)
      let parent := ctx.loadHole parentLoc
      let grandparent := ctx.loadHole grandparentLoc
      let ctx := ctx.storeHole parentLoc { parent with isBlack := true }
      some (ctx.storeHole grandparentLoc { grandparent with isBlack := false })

/-- `rb815_tree_insert_repair` (iprb815.c:837-951). -/
def insertRepair : ℕ → Rb815ctx → ℕ → Option Rb815ctx
  | 0, _, _ => none
  | fuel + 1, ctx, loc =>
    let hole := ctx.loadHole loc
    if hole.parent.valid = false then some (ctx.storeHole loc { hole with isBlack := true })
    else
      let parentLoc := hole.parent.block
      let parent := ctx.loadHole parentLoc
      if parent.isBlack then some ctx
      else do
        let uncleLoc ← ctx.getUncleLoc loc
        let uncle := ctx.loadIf uncleLoc
        if parent.parent.valid = false then none
        else
          let grandparentLoc := parent.parent.block
          if uncleLoc ≠ rb815Null ∧ uncle.isBlack = false then
            let grandparent := ctx.loadHole grandparentLoc
            let ctx := ctx.storeHole parentLoc { parent with isBlack := true }
            let ctx := ctx.storeHole uncleLoc { uncle with isBlack := true }
            let ctx := ctx.storeHole grandparentLoc { grandparent with isBlack := false }
            insertRepair fuel ctx grandparentLoc
          else do
            let (ctx, loc) ← ctx.insertRotateInner loc parentLoc grandparentLoc
            ctx.insertRotateOuter loc

/-! ## Deletion -/

/-- What `delete_case3` to `delete_case6` load of the sibling `sLoc`: its descriptor, and those of
its children with their locations. -/
structure Sibling where
  s : Rb815hole
  leftLoc : ℕ
  rightLoc : ℕ
  left : Rb815hole
  right : Rb815hole

/-- The loads of the sibling and its children, left out for `RB815_HOLE_NULL`. -/
def loadSibling (ctx : Rb815ctx) (sLoc : ℕ) : Sibling :=
  let s := ctx.loadIf sLoc
  let leftLoc := if sLoc = rb815Null then rb815Null else s.left.loc
  let rightLoc := if sLoc = rb815Null then rb815Null else s.right.loc
  ⟨s, leftLoc, rightLoc, ctx.loadIf leftLoc, ctx.loadIf rightLoc⟩

/-- `(loc == RB815_HOLE_NULL || hole.is_black)`. -/
def blackOrNull (loc : ℕ) (hole : Rb815hole) : Bool := loc = rb815Null || hole.isBlack

/-- `delete_case6` (iprb815.c:990-1028). The colours of the sibling and the parent stay as they are.
-/
def deleteCase6 (ctx : Rb815ctx) (loc parentLoc : ℕ) : Option Rb815ctx := do
  let sLoc ← ctx.getSiblingLocParent loc parentLoc
  if sLoc = rb815Null ∨ parentLoc = rb815Null then none
  else
    let parent := ctx.loadHole parentLoc
    let sib := ctx.loadSibling sLoc
    if parent.left.PointsTo loc then
      (ctx.storeHole sib.rightLoc { sib.right with isBlack := true }).rotateLeft parentLoc
    else
      (ctx.storeHole sib.leftLoc { sib.left with isBlack := true }).rotateRight parentLoc

/-- The rotation of `delete_case5`, before case 6. -/
def deleteRotate5 (ctx : Rb815ctx) (loc parentLoc : ℕ) : Option Rb815ctx := do
  let sLoc ← ctx.getSiblingLocParent loc parentLoc
  if sLoc = rb815Null ∨ parentLoc = rb815Null then none
  else
    let parent := ctx.loadHole parentLoc
    let sib := ctx.loadSibling sLoc
    if sib.s.isBlack then
      if parent.left.PointsTo loc ∧ blackOrNull sib.rightLoc sib.right ∧
          ¬blackOrNull sib.leftLoc sib.left then
        let ctx := ctx.storeHole sLoc { sib.s with isBlack := false }
        let ctx := ctx.storeHole sib.leftLoc { sib.left with isBlack := true }
        ctx.rotateRight sLoc
      else if parent.right.PointsTo loc ∧ blackOrNull sib.leftLoc sib.left ∧
          ¬blackOrNull sib.rightLoc sib.right then
        let ctx := ctx.storeHole sLoc { sib.s with isBlack := false }
        let ctx := ctx.storeHole sib.rightLoc { sib.right with isBlack := true }
        ctx.rotateLeft sLoc
      else some ctx
    else some ctx

/-- `delete_case5` (iprb815.c:1030-1080). -/
def deleteCase5 (ctx : Rb815ctx) (loc parentLoc : ℕ) : Option Rb815ctx := do
  let ctx ← ctx.deleteRotate5 loc parentLoc
  ctx.deleteCase6 loc parentLoc

/-- The test of `delete_case3` and `delete_case4`: neither the sibling nor a child of it is red. -/
def noRed (sLoc : ℕ) (sib : Sibling) : Bool :=
  blackOrNull sLoc sib.s && blackOrNull sib.leftLoc sib.left && blackOrNull sib.rightLoc sib.right

/-- `delete_case4` (iprb815.c:1082-1121). The sibling is stored even if its location is
`RB815_HOLE_NULL`. -/
def deleteCase4 (ctx : Rb815ctx) (loc parentLoc : ℕ) : Option Rb815ctx := do
  let sLoc ← ctx.getSiblingLocParent loc parentLoc
  let parent := ctx.loadHole parentLoc
  let sib := ctx.loadSibling sLoc
  if !parent.isBlack && noRed sLoc sib then
    let ctx := ctx.storeHole sLoc { sib.s with isBlack := false }
    some (ctx.storeHole parentLoc { parent with isBlack := true })
  else ctx.deleteCase5 loc parentLoc

/-- `delete_case3` (iprb815.c:1126-1165); `case1` is `delete_case1`. Again the sibling may be
`RB815_HOLE_NULL`. -/
def deleteCase3 (case1 : Rb815ctx → ℕ → ℕ → Option Rb815ctx) (ctx : Rb815ctx) (loc parentLoc : ℕ) :
    Option Rb815ctx := do
  let sLoc ← ctx.getSiblingLocParent loc parentLoc
  let parent := ctx.loadHole parentLoc
  let sib := ctx.loadSibling sLoc
  if parent.isBlack && noRed sLoc sib then
    case1 (ctx.storeHole sLoc { sib.s with isBlack := false }) parentLoc parent.parent.loc
  else ctx.deleteCase4 loc parentLoc

/-- The rotation of `delete_case2`, before case 3. -/
def deleteRotate2 (ctx : Rb815ctx) (loc parentLoc : ℕ) : Option Rb815ctx := do
  let sLoc ← ctx.getSiblingLocParent loc parentLoc
  let parent := ctx.loadHole parentLoc
  let s := ctx.loadIf sLoc
  if sLoc ≠ rb815Null ∧ s.isBlack = false then
    let ctx := ctx.storeHole parentLoc { parent with isBlack := false }
    let ctx := ctx.storeHole sLoc { s with isBlack := true }
    if parent.left.PointsTo loc then ctx.rotateLeft parentLoc else ctx.rotateRight parentLoc
  else some ctx

/-- `delete_case2` (iprb815.c:1167-1194). -/
def deleteCase2 (case1 : Rb815ctx → ℕ → ℕ → Option Rb815ctx) (ctx : Rb815ctx) (loc parentLoc : ℕ) :
    Option Rb815ctx := do
  let ctx ← ctx.deleteRotate2 loc parentLoc
  ctx.deleteCase3 case1 loc parentLoc

/-- `delete_case1` (iprb815.c:1196-1206). -/
def deleteCase1 : ℕ → Rb815ctx → ℕ → ℕ → Option Rb815ctx
  | 0, _, _, _ => none
  | fuel + 1, ctx, loc, parentLoc =>
    if parentLoc = rb815Null then some ctx
    else ctx.deleteCase2 (deleteCase1 fuel) loc parentLoc

/-- The first part of `rb815_tree_delete_one_child`: `childLoc` in the place of `loc`. Returns the
context and the descriptor of the child (iprb815.c:1216-1273). -/
def unlink (ctx : Rb815ctx) (loc childLoc : ℕ) : Rb815ctx × Rb815hole :=
  let parentLoc := (ctx.loadHole loc).parent.loc
  let parent := ctx.loadIf parentLoc
  let child := ctx.loadIf childLoc
  if parentLoc = rb815Null then
    let child := { child with parent := { child.parent with valid := false } }
    ({ ctx with rootHole := childLoc }.storeIf childLoc child, child)
  else if parent.left.PointsTo loc then
    let child := { child with parent := .toLoc parentLoc }
    ((ctx.storeIf childLoc child).storeHole parentLoc { parent with
      left := .ofLoc childLoc }, child)
  else if parent.right.PointsTo loc then
    let child := { child with parent := .toLoc parentLoc }
    ((ctx.storeIf childLoc child).storeHole parentLoc { parent with
      right := .ofLoc childLoc }, child)
  else ((ctx.storeIf childLoc child).storeHole parentLoc parent, child)

/-- `rb815_tree_delete_one_child` (iprb815.c:1208-1292). -/
def deleteOneChild (fuel : ℕ) (ctx : Rb815ctx) (loc : ℕ) : Option Rb815ctx :=
  let node := ctx.loadHole loc
  let parentLoc := node.parent.loc
  let childLoc := if node.right.valid = false then node.left.loc else node.right.loc
  let (ctx, child) := ctx.unlink loc childLoc
  if node.isBlack then
    if childLoc ≠ rb815Null ∧ child.isBlack = false then
      some (ctx.storeHole childLoc { child with isBlack := true })
    else if childLoc ≠ rb815Null then deleteCase1 fuel ctx childLoc parentLoc
    else some ctx
  else some ctx

/-- The first two branches of `exchange`: `n2Loc` is the child of `n1Loc` on side `d`
(iprb815.c:242-433). -/
def exchangeChild (d : Side) (ctx : Rb815ctx) (n1Loc n2Loc : ℕ) : Option Rb815ctx := do
  let n1 := ctx.loadHole n1Loc
  let n2 := ctx.loadHole n2Loc
  let otherLoc := (n1.child d.other).loc
  let parentLoc := n1.parent.loc
  let other := { ctx.loadIf otherLoc with parent := .toLoc n2Loc }
  let n2Left := { ctx.loadIf n2.left.loc with parent := .toLoc n1Loc }
  let n2Right := { ctx.loadIf n2.right.loc with parent := .toLoc n1Loc }
  let parent ← (
    if parentLoc = rb815Null then some .zero
    else (ctx.loadHole parentLoc).replaceChild n1Loc n2Loc)
  let ctx := { ctx with rootHole := if parentLoc = rb815Null then n2Loc else ctx.rootHole }
  let ctx := ctx.storeHole n1Loc
    { n1 with left := n2.left, right := n2.right, parent := .toLoc n2Loc, isBlack := n2.isBlack }
  let ctx := ctx.storeHole n2Loc
    { (n2.setChild d (.toLoc n1Loc)).setChild d.other (.ofLoc otherLoc) with
      parent := .ofLoc parentLoc, isBlack := n1.isBlack }
  let ctx := (ctx.storeIf otherLoc other).storeIf parentLoc parent
  some ((ctx.storeIf n2.left.loc n2Left).storeIf n2.right.loc n2Right)

/-- The link to `loc` in its parent becomes a link to `new`, in the copy `parent` of the parent, if
there is one. -/
def storeReplaced (ctx : Rb815ctx) (parentLoc : ℕ) (parent : Rb815hole) (loc new : ℕ) :
    Option Rb815ctx :=
  if parentLoc = rb815Null then some ctx
  else (parent.replaceChild loc new).map (ctx.storeHole parentLoc)

/-- The last part of `exchange`: neither node is the parent of the other (iprb815.c:450-592). Both
parents are loaded before one of them is stored; the children are loaded after that. -/
def exchangeApart (ctx : Rb815ctx) (n1Loc n2Loc : ℕ) : Option Rb815ctx := do
  let n1 := ctx.loadHole n1Loc
  let n2 := ctx.loadHole n2Loc
  let n1ParentLoc := n1.parent.loc
  let n2ParentLoc := n2.parent.loc
  let n1Parent := ctx.loadIf n1ParentLoc
  let n2Parent := ctx.loadIf n2ParentLoc
  let ctx ← ctx.storeReplaced n1ParentLoc n1Parent n1Loc n2Loc
  let ctx ← ctx.storeReplaced n2ParentLoc n2Parent n2Loc n1Loc
  let n1Left := { ctx.loadIf n1.left.loc with parent := .toLoc n2Loc }
  let n1Right := { ctx.loadIf n1.right.loc with parent := .toLoc n2Loc }
  let n2Left := { ctx.loadIf n2.left.loc with parent := .toLoc n1Loc }
  let n2Right := { ctx.loadIf n2.right.loc with parent := .toLoc n1Loc }
  if n2ParentLoc = rb815Null ∧ n1ParentLoc = rb815Null then none
  else
    let ctx := { ctx with rootHole := if n2ParentLoc = rb815Null then n1Loc else ctx.rootHole }
    let ctx := { ctx with rootHole := if n1ParentLoc = rb815Null then n2Loc else ctx.rootHole }
    let ctx := ctx.storeHole n1Loc
      { n1 with parent := .ofLoc n2ParentLoc, left := .ofLoc n2.left.loc,
                right := .ofLoc n2.right.loc, isBlack := n2.isBlack }
    let ctx := ctx.storeHole n2Loc
      { n2 with parent := .ofLoc n1ParentLoc, left := .ofLoc n1.left.loc,
                right := .ofLoc n1.right.loc, isBlack := n1.isBlack }
    let ctx := (ctx.storeIf n1.left.loc n1Left).storeIf n1.right.loc n1Right
    some ((ctx.storeIf n2.left.loc n2Left).storeIf n2.right.loc n2Right)

/-- The branches of `exchange`; `again` is its call with the nodes in the other order. The links of
`n1Loc` are compared without their valid bits. -/
def exchangeOnce (again : Option Rb815ctx) (ctx : Rb815ctx) (n1Loc n2Loc : ℕ) : Option Rb815ctx :=
  let n1 := ctx.loadHole n1Loc
  let n2 := ctx.loadHole n2Loc
  if n2.parent.PointsTo n1Loc ∧ n1.left.block = n2Loc then ctx.exchangeChild .left n1Loc n2Loc
  else if n2.parent.PointsTo n1Loc ∧ n1.right.block = n2Loc then
    ctx.exchangeChild .right n1Loc n2Loc
  else if n1.parent.loc = n2Loc then again
  else ctx.exchangeApart n1Loc n2Loc

/-- `exchange` (iprb815.c:190-592). It calls itself at most once, unless the two nodes are each
other's parent. -/
def exchange (ctx : Rb815ctx) (n1Loc n2Loc : ℕ) : Option Rb815ctx :=
  ctx.exchangeOnce (ctx.exchangeOnce none n2Loc n1Loc) n1Loc n2Loc

/-- The loops that go down by the valid links on one side: of `rb815_tree_rightmost`,
`rb815_tree_delete` and `add_data`. -/
def descend (d : Side) (ctx : Rb815ctx) : ℕ → ℕ → Option ℕ
  | 0, _ => none
  | fuel + 1, loc =>
    let hole := ctx.loadHole loc
    if (hole.child d).valid then ctx.descend d fuel (hole.child d).block else some loc

/-- `rb815_tree_delete` (iprb815.c:1294-1341). -/
def delete (fuel : ℕ) (ctx : Rb815ctx) (loc : ℕ) : Option Rb815ctx :=
  let node := ctx.loadHole loc
  if node.left.valid ∧ node.right.valid then do
    let loc2 ← ctx.descend .right fuel node.left.block
    let ctx ← ctx.exchange loc loc2
    ctx.deleteOneChild fuel loc
  else ctx.deleteOneChild fuel loc

/-- `rb815_tree_rightmost` (iprb815.c:973-988). -/
def rightmost (fuel : ℕ) (ctx : Rb815ctx) : Option ℕ :=
  if ctx.rootHole = rb815Null then some rb815Null else ctx.descend .right fuel ctx.rootHole

end Rb815ctx

/-! ## Packets -/

/-- More than the number of blocks of the buffer, which no loop over the nodes can exceed. -/
abbrev treeBound : ℕ := 8193

/-- `rb815ctx_init_fast` (iprb815.c:53-65) over a context with arbitrary contents. -/
def rb815ctxInitFast (ctx : Rb815ctx) : Rb815ctx :=
  let hole := { Rb815hole.zero with len := 65535, isBlack := true }
  let ctx := { ctx with rootHole := 0, mostRestrictingLast := 65535, hdrLen := 0, stores := [] }
  ctx.storeHole 0 hole

/-- `rb815ctx_complete` (iprb815.h:40-43). -/
def rb815ctxComplete (ctx : Rb815ctx) : Bool := ctx.rootHole = rb815Null

namespace Rb815ctx

/-- The loop of `repair_most_restricting` (iprb815.c:1374-1390). Returns the context and the
rightmost hole that is left, or `RB815_HOLE_NULL`. -/
def deleteBehind : ℕ → Rb815ctx → Option (Rb815ctx × ℕ)
  | 0, _ => none
  | fuel + 1, ctx =>
    if ctx.rootHole = rb815Null then some (ctx, rb815Null)
    else do
      let loc ← ctx.rightmost treeBound
      if loc > ctx.mostRestrictingLast then do
        let ctx ← ctx.delete treeBound loc
        deleteBehind fuel ctx
      else some (ctx, loc)

/-- `repair_most_restricting` (iprb815.c:1370-1396). -/
def repairMostRestricting (ctx : Rb815ctx) : Option Rb815ctx := do
  let (ctx, loc) ← deleteBehind treeBound ctx
  if loc = rb815Null then some ctx
  else
    let hole := ctx.loadHole loc
    if loc + hole.len > ctx.mostRestrictingLast + 1 then
      some (ctx.storeHole loc { hole with len := .ofNat _ (ctx.mostRestrictingLast - loc + 1) })
    else some (ctx.storeHole loc hole)

/-- The search of `add_data` (iprb815.c:1405-1427): a hole with a byte at or behind `dataFirst` and
one at or in front of `dataLast`, or `RB815_HOLE_NULL`. -/
def searchHole (dataFirst dataLast : ℕ) (ctx : Rb815ctx) : ℕ → ℕ → Option ℕ
  | 0, _ => none
  | fuel + 1, loc =>
    if loc = rb815Null then some rb815Null
    else
      let hole := ctx.loadHole loc
      if loc + hole.len < dataFirst + 1 then searchHole dataFirst dataLast ctx fuel hole.right.loc
      else if loc > dataLast then searchHole dataFirst dataLast ctx fuel hole.left.loc
      else some loc

/-- The branch of `add_data` for a fragment inside the hole (iprb815.c:1428-1526). -/
def splitHole (ctx : Rb815ctx) (loc dataFirst dataLast : ℕ) : Option Rb815ctx :=
  let hole := ctx.loadHole loc
  let newLoc := (dataLast + 1) % 65536
  let newHole := { Rb815hole.zero with len := .ofNat _ (loc + hole.len - newLoc) }
  let hole := { hole with len := .ofNat _ (dataFirst - loc) }
  if hole.right.valid = false then
    if newLoc % 8 ≠ 0 ∨ loc % 8 ≠ 0 then none
    else
      let ctx := ctx.storeHole loc { hole with right := .toLoc newLoc }
      let ctx := ctx.storeHole newLoc { newHole with parent := .toLoc loc }
      ctx.insertRepair treeBound newLoc
  else do
    let ctx := ctx.storeHole loc hole
    let loc ← ctx.descend .left treeBound hole.right.block
    if newLoc % 8 ≠ 0 ∨ loc % 8 ≠ 0 then none
    else
      let ctx := ctx.storeHole loc { ctx.loadHole loc with left := .toLoc newLoc }
      let ctx := ctx.storeHole newLoc { newHole with parent := .toLoc loc }
      ctx.insertRepair treeBound newLoc

/-- The branch of `add_data` that moves a hole behind the fragment (iprb815.c:1552-1612). -/
def moveHole (ctx : Rb815ctx) (loc dataLast : ℕ) : Option Rb815ctx :=
  let hole := ctx.loadHole loc
  let newLoc := (dataLast + 1) % 65536
  if newLoc % 8 ≠ 0 then none
  else
    let hole := { hole with len := .ofNat _ (hole.len + loc + 65536 - newLoc) }
    let ctx := ctx.storeHole newLoc hole
    let ctx := (
      if hole.left.valid then
        let left := ctx.loadHole hole.left.block
        ctx.storeHole hole.left.block
          { left with parent := { left.parent with div8 := .ofNat _ (newLoc / 8) } }
      else ctx)
    let ctx := (
      if hole.right.valid then
        let right := ctx.loadHole hole.right.block
        ctx.storeHole hole.right.block
          { right with parent := { right.parent with div8 := .ofNat _ (newLoc / 8) } }
      else ctx)
    if hole.parent.valid = false then some { ctx with rootHole := newLoc }
    else
      ((ctx.loadHole hole.parent.block).replaceChild loc newLoc).map
        (ctx.storeHole hole.parent.block)

/-- `add_data` (iprb815.c:1398-1613), at most `fuel` times from `back`. Returns the context and
`mod`. -/
def addData (dataFirst dataLast : ℕ) : ℕ → Rb815ctx → Bool → Option (Rb815ctx × Bool)
  | 0, _, _ => none
  | fuel + 1, ctx, mod => do
    let loc ← searchHole dataFirst dataLast ctx treeBound ctx.rootHole
    if loc = rb815Null then some (ctx, mod)
    else
      let hole := ctx.loadHole loc
      if loc + hole.len > dataLast + 1 ∧ loc < dataFirst then do
        let ctx ← ctx.splitHole loc dataFirst dataLast
        some (ctx, true)
      else if loc + hole.len ≤ dataLast + 1 ∧ loc ≥ dataFirst then do
        let ctx ← ctx.delete treeBound loc
        addData dataFirst dataLast fuel ctx true
      else if loc + hole.len ≤ dataLast + 1 ∧ loc + hole.len > dataFirst then
        addData dataFirst dataLast fuel
          (ctx.storeHole loc { hole with len := .ofNat _ (dataFirst - loc) }) true
      else if loc ≥ dataFirst ∧ loc < dataLast + 1 then do
        let ctx ← ctx.moveHole loc dataLast
        addData dataFirst dataLast fuel ctx true
      else some (ctx, mod)

end Rb815ctx

/-- `add_data` and the copy of the payload in `rb815ctx_add` (iprb815.c:1659-1668). -/
def rb815AddData (ctx : Rb815ctx) (pkt : Packet) (dataFirst dataLast : ℕ) (mod : Bool) :
    Option Rb815ctx := do
  let (ctx, mod) ← Rb815ctx.addData dataFirst dataLast treeBound ctx mod
  if mod then
    some { ctx with
      toPktBuf := ctx.store dataFirst pkt.data (ipPayload pkt.data ipOff)
        (dataLast + 1 - dataFirst) }
  else some ctx

/-- `rb815ctx_add` (iprb815.c:1615-1669). -/
def rb815ctxAdd (ctx : Rb815ctx) (pkt : Packet) : Option Rb815ctx :=
  if pkt.badLength then some ctx
  else
    let ctx := { ctx with toPktBuf := ctx.takeHeader pkt }
    if pkt.dataLast > 65535 then some ctx
    else if pkt.moreFrags = false ∧ ctx.mostRestrictingLast > pkt.dataLast then do
      let ctx ← Rb815ctx.repairMostRestricting { ctx with mostRestrictingLast := pkt.dataLast }
      rb815AddData ctx pkt pkt.dataFirst pkt.dataLast true
    else if pkt.dataLast < 7 then some ctx
    else rb815AddData ctx pkt pkt.dataFirst (roundLast pkt.dataLast) false

/-- `rb815ctx_reassemble` (iprb815.c:1343-1368). -/
def rb815ctxReassemble (e : Endian) (alloc : Option Packet) (ctx : Rb815ctx) :
    Option (Option Packet) :=
  ctx.reassemble e alloc

/-- `rb815ctx_init_fast` and `rb815ctx_add` for a sequence of packets, over a context with arbitrary
contents. -/
def rb815ctxRun (ctx : Rb815ctx) (pkts : List Packet) : Option Rb815ctx :=
  pkts.foldlM rb815ctxAdd (rb815ctxInitFast ctx)

end Pptk.Ipfrag
