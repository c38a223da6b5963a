import Mathlib.Logic.Function.Basic
import Mathlib.Data.Nat.Notation

/-!
# Timer heap of linked nodes

Model of `timerlinkheap/timerlink.c`. Timers are numbers, the fields of all `struct timer_link`
are maps from timers to values, and a null pointer is `none`. An `abort()` and an access through
a null pointer make the result of a function `none`.

The loops of `timer_linkheap_siftup` and `timer_linkheap_siftdown` are bounded by the number of
timers in the heap, which is enough (`siftup_spec`, `siftdown_spec` in
`Pptk.Timer.LinkHeapCorrect`).
-/

namespace Pptk.Timer

open Function

/-- The fields of the timers (`struct timer_link`, timerlink.h:15-22), and `struct timer_linkheap`
(lines 24-27). -/
structure LinkHeap where
  time64 : ℕ → ℕ
  parent : ℕ → Option ℕ
  left : ℕ → Option ℕ
  right : ℕ → Option ℕ
  root : Option ℕ
  size : ℕ

namespace LinkHeap

/-- `timer_linkheap_init` (timerlink.h:62-66). -/
def init (h : LinkHeap) : LinkHeap := { h with root := none, size := 0 }

/-- The assignment of a new time to a timer. -/
def setTime (h : LinkHeap) (k t : ℕ) : LinkHeap := { h with time64 := update h.time64 k t }

/-- `timer_linkheap_next_expiry_timer` (timerlink.h:53-60). -/
def nextExpiryTimer (h : LinkHeap) : Option ℕ := h.root

/-- `path` of `timer_linkheap_nth` (timerlink.c:26-37), first step first: whether the step goes to
the right. There are at most `n` steps to the node number `n`. -/
def nthPath : ℕ → ℕ → List Bool
  | 0, _ => []
  | fuel + 1, n => if n = 0 then [] else nthPath fuel ((n - 1) / 2) ++ [decide (n % 2 = 0)]

/-- One step of `timer_linkheap_nth` (timerlink.c:41-48). -/
def nthStep (h : LinkHeap) (link : Option ℕ) (goRight : Bool) : Option (Option ℕ) :=
  link.map fun k => if goRight then h.right k else h.left k

/-- `timer_linkheap_nth` (timerlink.c:19-51). -/
def nth (h : LinkHeap) (n : ℕ) : Option (Option ℕ) := (nthPath n n).foldlM h.nthStep h.root

/-- `timer_linkheap_last` (timerlink.c:53-57). -/
def last (h : LinkHeap) : Option (Option ℕ) := h.nth (h.size - 1)

/-- `timer_linkheap_last_plus_one_parent` (timerlink.c:59-63). -/
def lastPlusOneParent (h : LinkHeap) : Option (Option ℕ) := h.nth ((h.size - 1) / 2)

/-- `if (c) { c->parent = k; }` -/
def adopt (h : LinkHeap) (c : Option ℕ) (k : ℕ) : LinkHeap :=
  match c with
  | none => h
  | some c => { h with parent := update h.parent c (some k) }

/-- `new` gets the place of `old` below its own parent, or as root (timerlink.c:96-111 and three
times more). -/
def replaceChild (h : LinkHeap) (new old : ℕ) : Option LinkHeap :=
  match h.parent new with
  | none => some { h with root := some new }
  | some p =>
    if h.left p = some old then some { h with left := update h.left p (some new) }
    else if h.right p = some old then some { h with right := update h.right p (some new) }
    else none

/-- `timer_linkheap_swap_parentchild` (timerlink.c:65-158). -/
def swapParentchild (h : LinkHeap) (parent child : ℕ) : Option LinkHeap :=
  if h.parent child ≠ some parent then none
  else if h.left parent = some child then
    let h' := { h with
      parent := update (update h.parent child (h.parent parent)) parent
        (some child)
      left := update (update h.left child (some parent)) parent (h.left child)
      right := update (update h.right child (h.right parent)) parent
        (h.right child) }
    (((h'.adopt (h.left child) parent).adopt (h.right child) parent).adopt (h.right parent)
      child).replaceChild child parent
  else if h.right parent = some child then
    let h' := { h with
      parent := update (update h.parent child (h.parent parent)) parent
        (some child)
      left := update (update h.left child (h.left parent)) parent (h.left child)
      right := update (update h.right child (some parent)) parent
        (h.right child) }
    (((h'.adopt (h.left child) parent).adopt (h.right child) parent).adopt (h.left parent)
      child).replaceChild child parent
  else none

/-- `timer_linkheap_swap` (timerlink.c:160-249). -/
def swap (h : LinkHeap) (x1 x2 : ℕ) : Option LinkHeap :=
  if h.parent x1 = some x2 then h.swapParentchild x2 x1
  else if h.parent x2 = some x1 then h.swapParentchild x1 x2
  else
    let h' := { h with
      left := update (update h.left x1 (h.left x2)) x2 (h.left x1)
      right := update (update h.right x1 (h.right x2)) x2 (h.right x1)
      parent := update (update h.parent x1 (h.parent x2)) x2 (h.parent x1) }
    let linked :=
      if h.parent x1 = h.parent x2 then
        (h.parent x1).map fun p =>
          { h' with
            left := update h'.left p (h'.right p)
            right := update h'.right p (h'.left p) }
      else (h'.replaceChild x2 x1).bind fun h' => h'.replaceChild x1 x2
    linked.map fun h' =>
      (((h'.adopt (h.left x2) x1).adopt (h.right x2) x1).adopt (h.left x1) x2).adopt (h.right x1) x2

/-- The child that `timer_linkheap_siftdown` compares with (timerlink.c:256-294): the left one if
there is no other or it expires first. -/
def minChild (h : LinkHeap) (link : ℕ) : Option ℕ :=
  match h.left link, h.right link with
  | none, _ => none
  | some fc, none => some fc
  | some fc, some sc => if h.time64 fc < h.time64 sc then some fc else some sc

/-- `timer_linkheap_siftdown` (timerlink.c:251-296). -/
def siftdown (h : LinkHeap) (link : ℕ) : ℕ → Option LinkHeap
  | 0 => some h
  | fuel + 1 =>
    match h.minChild link with
    | none => some h
    | some c =>
      if h.time64 c < h.time64 link then
        (h.swapParentchild link c).bind fun h => h.siftdown link fuel
      else some h

/-- `timer_linkheap_siftup` (timerlink.c:298-314). -/
def siftup (h : LinkHeap) (link : ℕ) : ℕ → Option LinkHeap
  | 0 => some h
  | fuel + 1 =>
    match h.parent link with
    | none => some h
    | some p =>
      if h.time64 p > h.time64 link then
        (h.swapParentchild p link).bind fun h => h.siftup link fuel
      else some h

/-- `timer_linkheap_modify` (timerlink.c:439-456), which is also the end of `timer_linkheap_remove`
(lines 423-436) for the timer that has taken the place. -/
def modify (h : LinkHeap) (timer : ℕ) : Option LinkHeap :=
  match h.parent timer with
  | none => h.siftdown timer h.size
  | some p =>
    if h.time64 timer < h.time64 p then h.siftup timer h.size else h.siftdown timer h.size

/-- The link of a parent to its last child `timer` is cut (timerlink.c:380-391, 401-416). -/
def cut (h : LinkHeap) (timer p : ℕ) : Option LinkHeap :=
  if h.left p = some timer then some { h with left := update h.left p none }
  else if h.right p = some timer then some { h with right := update h.right p none }
  else none

/-- `timer_linkheap_remove` (timerlink.c:364-437). -/
def remove (h : LinkHeap) (timer : ℕ) : Option LinkHeap := do
  let some last ← h.last | none
  if h.left last ≠ none ∨ h.right last ≠ none then none
  else if timer = last then
    match h.parent timer with
    | some p => (h.cut timer p).map fun h => { h with size := h.size - 1 }
    | none => some { h with root := none, size := h.size - 1 }
  else
    let h ← h.swap timer last
    let p ← h.parent timer
    -- the parent of the last node has no right child if this is its left one
    if h.left p = some timer ∧ h.right p ≠ none then none
    else
      let h ← h.cut timer p
      let h := { h with parent := update h.parent timer none }
      if h.left timer ≠ none ∨ h.right timer ≠ none then none
      else modify { h with size := h.size - 1 } last

/-- `timer_linkheap_add` (timerlink.c:458-490). -/
def add (h : LinkHeap) (timer : ℕ) : Option LinkHeap := do
  let h := { h with
    left := update h.left timer none
    right := update h.right timer none }
  if h.root = none then
    some { h with
      size := h.size + 1, parent := update h.parent timer none, root := some timer }
  else
    let some p ← h.lastPlusOneParent | none
    let h := { h with parent := update h.parent timer (some p) }
    if h.left p = none then
      if h.right p ≠ none then none
      else
        siftup { h with left := update h.left p (some timer), size := h.size + 1 } timer
          (h.size + 1)
    else if h.right p = none then
      siftup { h with right := update h.right p (some timer), size := h.size + 1 } timer
        (h.size + 1)
    else none

end LinkHeap

end Pptk.Timer
