import Mathlib.Tactic

/-!
# Doubly linked lists in a heap

A list whose nodes lie in a heap indexed by `ι`. Every node holds a value and the
indices of its neighbours; `null` stands for the end on either side, where the
list keeps the index of its first and of its last node. The node of a value `x`
lies at `key x`.

`IsList null key s xs` says that `s` is the list of the values `xs`. The changes
of the links at one place are stated with the list cut open there (`Cut`): the
part in front of the cut ends in a link `nx`, the part behind it in a link `pv`.

Main results: `IsList.delete`, `IsList.move` and `IsList.split`.
-/

namespace Pptk.Lib

open Function List

variable {ι α : Type*} [DecidableEq ι]

/-- A node of a doubly linked list. -/
@[ext] structure DNode (ι α : Type*) where
  val : α
  next : ι
  prev : ι

/-- A heap of nodes with the two ends of a list. -/
@[ext] structure DList (ι α : Type*) where
  first : ι
  last : ι
  node : ι → DNode ι α

namespace DList

/-- Stores a whole node. -/
def setNode (s : DList ι α) (i : ι) (x : DNode ι α) : DList ι α :=
  { s with node := update s.node i x }

theorem node_setNode_self (s : DList ι α) (i : ι) (x : DNode ι α) : (s.setNode i x).node i = x :=
  update_self ..

theorem node_setNode_of_ne (s : DList ι α) {i j : ι} (h : j ≠ i) (x : DNode ι α) :
    (s.setNode i x).node j = s.node j :=
  update_of_ne h ..

/-- Stores the link of node `i` to the next one, or the first index for `null`. -/
def setNext (null : ι) (s : DList ι α) (i v : ι) : DList ι α :=
  if i = null then { s with first := v } else s.setNode i { s.node i with next := v }

/-- Stores the link of node `i` to the previous one, or the last index for `null`. -/
def setPrev (null : ι) (s : DList ι α) (i v : ι) : DList ι α :=
  if i = null then { s with last := v } else s.setNode i { s.node i with prev := v }

end DList

section

variable (key : α → ι)

/-- The index of the first value, `n` if there is none. -/
def headOr (n : ι) : List α → ι
  | [] => n
  | x :: _ => key x

/-- The index of the last value, `p` if there is none. -/
def lastOr (p : ι) (xs : List α) : ι := headOr key p xs.reverse

/-- The nodes of `xs` are linked to each other, the first one back to `p` and the last one on to
`n`. -/
def Seg (node : ι → DNode ι α) (p : ι) : List α → ι → Prop
  | [], _ => True
  | x :: xs, n => node (key x) = ⟨x, headOr key n xs, p⟩ ∧ Seg node (key x) xs n

variable (null : ι)

/-- A list cut open between `xs` and `ys`. -/
structure Cut (s : DList ι α) (xs : List α) (nx pv : ι) (ys : List α) : Prop where
  first : s.first = headOr key nx xs
  last : s.last = lastOr key pv ys
  front : Seg key s.node null xs nx
  back : Seg key s.node pv ys null

/-- `s` is the list of the values `xs`. -/
def IsList (s : DList ι α) (xs : List α) : Prop := Cut key null s xs null (lastOr key null xs) []

end

section Lemmas

variable {key : α → ι} {null nx pv n p i v : ι} {node node' : ι → DNode ι α} {s : DList ι α}
  {x y : α} {xs ys : List α}

omit [DecidableEq ι] in
@[simp] theorem headOr_nil : headOr key n [] = n := rfl

omit [DecidableEq ι] in
@[simp] theorem headOr_cons : headOr key n (x :: xs) = key x := rfl

omit [DecidableEq ι] in
theorem headOr_append : headOr key n (xs ++ ys) = headOr key (headOr key n ys) xs := by
  cases xs <;> rfl

omit [DecidableEq ι] in
@[simp] theorem lastOr_nil : lastOr key p [] = p := rfl

omit [DecidableEq ι] in
theorem lastOr_append : lastOr key p (xs ++ ys) = lastOr key (lastOr key p xs) ys := by
  rw [lastOr, reverse_append, headOr_append, lastOr, lastOr]

omit [DecidableEq ι] in
@[simp] theorem lastOr_cons : lastOr key p (x :: xs) = lastOr key (key x) xs := by
  rw [← singleton_append, lastOr_append]
  rfl

omit [DecidableEq ι] in
theorem lastOr_concat : lastOr key p (xs ++ [x]) = key x := by
  rw [lastOr_append]
  rfl

omit [DecidableEq ι] in
theorem seg_append : Seg key node p (xs ++ ys) n ↔
    Seg key node p xs (headOr key n ys) ∧ Seg key node (lastOr key p xs) ys n := by
  induction xs generalizing p with
  | nil => simp [Seg]
  | cons x xs ih => simp only [cons_append, Seg, ih, headOr_append, lastOr_cons, and_assoc]

omit [DecidableEq ι] in
theorem Seg.congr (h : Seg key node p xs n) (hn : ∀ i ∈ xs.map key, node' i = node i) :
    Seg key node' p xs n := by
  induction xs generalizing p with
  | nil => trivial
  | cons x xs ih =>
    simp only [map_cons, forall_mem_cons] at hn
    exact ⟨hn.1.trans h.1, ih h.2 hn.2⟩

omit [DecidableEq ι] in
theorem isList_iff_cut : IsList key null s (xs ++ ys) ↔
    Cut key null s xs (headOr key null ys) (lastOr key null xs) ys := by
  constructor
  · rintro ⟨h1, h2, h3, -⟩
    rw [seg_append] at h3
    exact ⟨h1.trans headOr_append, h2.trans lastOr_append, h3.1, h3.2⟩
  · rintro ⟨h1, h2, h3, h4⟩
    exact ⟨h1.trans headOr_append.symm, h2.trans lastOr_append.symm, seg_append.mpr ⟨h3, h4⟩,
      trivial⟩

omit [DecidableEq ι] in
theorem isList_iff_cut_node : IsList key null s (xs ++ x :: ys) ↔
    Cut key null s xs (key x) (key x) ys ∧
      s.node (key x) = ⟨x, headOr key null ys, lastOr key null xs⟩ := by
  rw [isList_iff_cut]
  constructor
  · rintro ⟨h1, h2, h3, h4, h5⟩
    exact ⟨⟨h1, h2.trans lastOr_cons, h3, h5⟩, h4⟩
  · rintro ⟨⟨h1, h2, h3, h5⟩, h4⟩
    exact ⟨h1, h2.trans lastOr_cons.symm, h3, h4, h5⟩

omit [DecidableEq ι] in
theorem Seg.update_of_notMem [DecidableEq ι] (h : Seg key node p xs n) (hx : i ∉ xs.map key)
    (a : DNode ι α) : Seg key (update node i a) p xs n := by
  refine h.congr fun j hj => update_of_ne ?_ _ _
  rintro rfl
  exact hx hj

namespace Cut

theorem setNode (h : Cut key null s xs nx pv ys) (hx : i ∉ xs.map key) (hy : i ∉ ys.map key)
    (a : DNode ι α) : Cut key null (s.setNode i a) xs nx pv ys :=
  ⟨h.first, h.last, h.front.update_of_notMem hx a, h.back.update_of_notMem hy a⟩

theorem setNext (h : Cut key null s xs nx pv ys) (hnd : ((xs ++ ys).map key).Nodup)
    (hnull : null ∉ xs.map key) (v : ι) :
    Cut key null (s.setNext null (lastOr key null xs) v) xs v pv ys := by
  obtain ⟨h1, h2, h3, h4⟩ := h
  rw [DList.setNext]
  cases xs using reverseRecOn with
  | nil =>
    rw [lastOr_nil, if_pos rfl]
    exact ⟨rfl, h2, trivial, h4⟩
  | append_singleton zs z =>
    simp only [map_append, map_cons, map_nil, append_assoc, cons_append,
      nil_append, mem_append, mem_singleton, not_or] at hnd hnull
    rw [nodup_append, nodup_cons] at hnd
    obtain ⟨-, ⟨hzy, -⟩, hdisj⟩ := hnd
    have hzz : key z ∉ zs.map key := fun hz => hdisj _ hz _ mem_cons_self rfl
    rw [seg_append] at h3
    rw [lastOr_concat, if_neg (Ne.symm hnull.2)]
    refine ⟨h1.trans (by rw [headOr_append, headOr_append]; rfl), h2, seg_append.mpr
      ⟨h3.1.update_of_notMem hzz _, ?_, trivial⟩, h4.update_of_notMem hzy _⟩
    have hz : s.node (key z) = ⟨z, nx, lastOr key null zs⟩ := h3.2.1
    rw [DList.node_setNode_self, hz]
    rfl

theorem setPrev (h : Cut key null s xs nx pv ys) (hnd : ((xs ++ ys).map key).Nodup)
    (hnull : null ∉ ys.map key) (v : ι) :
    Cut key null (s.setPrev null (headOr key null ys) v) xs nx v ys := by
  obtain ⟨h1, h2, h3, h4⟩ := h
  rw [DList.setPrev]
  cases ys with
  | nil =>
    rw [headOr_nil, if_pos rfl]
    exact ⟨h1, rfl, h3, trivial⟩
  | cons y ys =>
    simp only [map_append, map_cons, mem_cons, not_or] at hnd hnull
    rw [nodup_append, nodup_cons] at hnd
    obtain ⟨-, ⟨hyy, -⟩, hdisj⟩ := hnd
    have hyx : key y ∉ xs.map key := fun hy => hdisj _ hy _ mem_cons_self rfl
    rw [headOr_cons, if_neg (Ne.symm hnull.1)]
    refine ⟨h1, h2.trans (by rw [lastOr_cons, lastOr_cons]), h3.update_of_notMem hyx _, ?_,
      h4.2.update_of_notMem hyy _⟩
    rw [DList.node_setNode_self, h4.1]

end Cut

/-! ## Changes at one place -/

namespace IsList

omit [DecidableEq ι] in
theorem node_eq (h : IsList key null s (xs ++ x :: ys)) :
    s.node (key x) = ⟨x, headOr key null ys, lastOr key null xs⟩ :=
  (isList_iff_cut_node.mp h).2

omit [DecidableEq ι] in
theorem congr {s' : DList ι α} (h : IsList key null s xs) (hf : s'.first = s.first)
    (hl : s'.last = s.last) (hn : ∀ i ∈ xs.map key, s'.node i = s.node i) : IsList key null s' xs :=
  ⟨hf.trans h.first, hl.trans h.last, h.front.congr hn, trivial⟩

/-- Taking the node of `x` out: its neighbours are linked to each other. -/
theorem delete (h : IsList key null s (xs ++ x :: ys)) (hnd : ((xs ++ x :: ys).map key).Nodup)
    (hnull : null ∉ (xs ++ x :: ys).map key) :
    IsList key null ((s.setNext null (lastOr key null xs) (headOr key null ys)).setPrev null
      (headOr key null ys) (lastOr key null xs)) (xs ++ ys) := by
  have hsub : ((xs ++ ys).map key).Nodup := hnd.sublist (List.Sublist.map _ (by simp))
  simp only [map_append, map_cons, mem_append, mem_cons, not_or] at hnull
  have h1 := (isList_iff_cut_node.mp h).1
  exact isList_iff_cut.mpr ((h1.setNext hsub hnull.1 _).setPrev hsub hnull.2.2 _)

/-- The value of a node is changed in place. -/
theorem replace (h : IsList key null s (xs ++ x :: ys)) (hnd : ((xs ++ x :: ys).map key).Nodup)
    (hkey : key y = key x) :
    IsList key null (s.setNode (key x) ⟨y, headOr key null ys, lastOr key null xs⟩)
      (xs ++ y :: ys) := by
  simp only [map_append, map_cons, nodup_append, nodup_cons] at hnd
  obtain ⟨-, ⟨hy, -⟩, hdisj⟩ := hnd
  have hx : key x ∉ xs.map key := fun hx => hdisj _ hx _ mem_cons_self rfl
  rw [isList_iff_cut_node, hkey]
  exact ⟨(isList_iff_cut_node.mp h).1.setNode hx hy _, update_self ..⟩

/-- Moving the node of `x` to the free index of `y`: its neighbours are linked to the new index. -/
theorem move (h : IsList key null s (xs ++ x :: ys)) (hnd : ((xs ++ x :: ys).map key).Nodup)
    (hnull : null ∉ (xs ++ x :: ys).map key) (hy : key y ∉ (xs ++ ys).map key) :
    IsList key null (((s.setNext null (lastOr key null xs) (key y)).setPrev null
      (headOr key null ys) (key y)).setNode (key y) ⟨y, headOr key null ys, lastOr key null xs⟩)
      (xs ++ y :: ys) := by
  have hsub : ((xs ++ ys).map key).Nodup := hnd.sublist (List.Sublist.map _ (by simp))
  simp only [map_append, map_cons, mem_append, mem_cons, not_or] at hnull hy
  have h1 := (isList_iff_cut_node.mp h).1
  have h2 := (h1.setNext hsub hnull.1 (key y)).setPrev hsub hnull.2.2 (key y)
  exact isList_iff_cut_node.mpr ⟨h2.setNode hy.1 hy.2 _, update_self ..⟩

/-- Changing the value of a node to `x'` and putting a node for `y` behind it. -/
theorem split {x' : α} (h : IsList key null s (xs ++ x :: ys))
    (hnd : ((xs ++ x :: ys).map key).Nodup) (hnull : null ∉ (xs ++ x :: ys).map key)
    (hkey : key x' = key x) (hy : key y ∉ (xs ++ x :: ys).map key) :
    IsList key null (((s.setPrev null (headOr key null ys) (key y)).setNode (key x)
      ⟨x', key y, lastOr key null xs⟩).setNode (key y) ⟨y, headOr key null ys, key x⟩)
      (xs ++ x' :: y :: ys) := by
  have hsub : ((xs ++ ys).map key).Nodup := hnd.sublist (List.Sublist.map _ (by simp))
  simp only [map_append, map_cons, nodup_append, nodup_cons] at hnd
  obtain ⟨-, ⟨hxy, -⟩, hdisj⟩ := hnd
  have hxx : key x ∉ xs.map key := fun hx => hdisj _ hx _ mem_cons_self rfl
  simp only [map_append, map_cons, mem_append, mem_cons, not_or] at hnull hy
  obtain ⟨hyx, hne, hyy⟩ := hy
  have h1 := (isList_iff_cut_node.mp h).1.setPrev hsub hnull.2.2 (key y)
  obtain ⟨c1, c2, c3, c4⟩ := (h1.setNode hxx hxy ⟨x', key y, lastOr key null xs⟩).setNode hyx hyy
    ⟨y, headOr key null ys, key x⟩
  rw [isList_iff_cut_node, hkey]
  refine ⟨⟨c1, c2.trans lastOr_cons.symm, c3, ?_, c4⟩, ?_⟩
  · rw [DList.node_setNode_self]
  · rw [DList.node_setNode_of_ne _ (Ne.symm hne), DList.node_setNode_self]
    rfl

end IsList

end Lemmas

end Pptk.Lib
