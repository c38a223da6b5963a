import Mathlib.Tactic
import Mathlib.Data.Multiset.UnionInter

/-!
# Coloured binary trees and paths

Binary trees whose nodes carry a key and a colour, and paths into them. A path
is the list of frames from the place reached up to the root; a frame says on
which side of its node the path goes down, and has the other subtree.

The left and right cases of an algorithm are one case of a `Side`: `mk d`
builds a node from its subtree on side `d` (the near one) and the other (the far
one). `keys` does not see the order of the subtrees, so it is the same for both
sides; `toList` is the in-order sequence.
-/

namespace Pptk.Lib

open Multiset

/-- The two sides of a node. -/
inductive Side
  | left
  | right
deriving DecidableEq, Repr

namespace Side

/-- The opposite side. -/
def other : Side → Side
  | left => right
  | right => left

@[simp] theorem other_other (d : Side) : d.other.other = d := by cases d <;> rfl

@[simp] theorem other_ne (d : Side) : d.other ≠ d := by cases d <;> simp [other]

@[simp] theorem ne_other (d : Side) : d ≠ d.other := by cases d <;> simp [other]

theorem eq_other_of_ne {d d' : Side} (h : d ≠ d') : d = d'.other := by
  cases d <;> cases d' <;> simp_all [other]

/-- The left or the right one of two values. -/
def pick {α : Type*} (d : Side) (l r : α) : α :=
  match d with
  | left => l
  | right => r

end Side

/-- Binary trees with a colour at each node. -/
inductive CTree (ι : Type*)
  | leaf
  | node (black : Bool) (l : CTree ι) (k : ι) (r : CTree ι)
deriving DecidableEq, Repr

namespace CTree

variable {ι : Type*}

/-- The key at the root. -/
def root? : CTree ι → Option ι
  | leaf => none
  | node _ _ k _ => some k

/-- The keys in order. -/
def toList : CTree ι → List ι
  | leaf => []
  | node _ l k r => l.toList ++ k :: r.toList

/-- The keys without their order. -/
def keys : CTree ι → Multiset ι
  | leaf => 0
  | node _ l k r => k ::ₘ (l.keys + r.keys)

/-- The root is a red node. -/
def isRed : CTree ι → Bool
  | leaf => false
  | node b _ _ _ => !b

/-- The tree with a black root. -/
def blacken : CTree ι → CTree ι
  | leaf => leaf
  | node _ l k r => node true l k r

/-- The tree with a red root. -/
def redden : CTree ι → CTree ι
  | leaf => leaf
  | node _ l k r => node false l k r

/-- A node with subtree `near` on side `d` and `far` on the other. -/
def mk (d : Side) (black : Bool) (k : ι) (near far : CTree ι) : CTree ι :=
  match d with
  | .left => node black near k far
  | .right => node black far k near

section Simp

variable (d : Side) (b : Bool) (k : ι) (near far : CTree ι)

@[simp] theorem root?_mk : (mk d b k near far).root? = some k := by cases d <;> rfl

@[simp] theorem isRed_mk : (mk d b k near far).isRed = !b := by cases d <;> rfl

@[simp] theorem blacken_mk : (mk d b k near far).blacken = mk d true k near far := by
  cases d <;> rfl

@[simp] theorem redden_mk : (mk d b k near far).redden = mk d false k near far := by
  cases d <;> rfl

@[simp] theorem keys_mk : (mk d b k near far).keys = k ::ₘ (near.keys + far.keys) := by
  cases d
  · rfl
  · simp [mk, keys, add_comm]

theorem mk_other : mk d.other b k near far = mk d b k far near := by cases d <;> rfl

theorem mk_ne_leaf : mk d b k near far ≠ leaf := by cases d <;> simp [mk]

end Simp

@[simp] theorem toList_blacken (t : CTree ι) : t.blacken.toList = t.toList := by cases t <;> rfl

@[simp] theorem toList_redden (t : CTree ι) : t.redden.toList = t.toList := by cases t <;> rfl

@[simp] theorem isRed_blacken (t : CTree ι) : t.blacken.isRed = false := by cases t <;> rfl

variable {t : CTree ι} {k : ι}

theorem eq_mk_of_isRed (d : Side) (h : t.isRed = true) :
    ∃ k near far, t = mk d false k near far := by
  cases t with
  | leaf => simp [isRed] at h
  | node b l k r =>
    cases b
    · cases d
      · exact ⟨k, l, r, rfl⟩
      · exact ⟨k, r, l, rfl⟩
    · simp [isRed] at h

theorem eq_mk (d : Side) (b : Bool) (l : CTree ι) (k : ι) (r : CTree ι) :
    node b l k r = mk d b k (d.pick l r) (d.pick r l) := by
  cases d <;> rfl

theorem mk_eq_node (d : Side) (b : Bool) (k : ι) (near far : CTree ι) :
    mk d b k near far = node b (d.pick near far) k (d.pick far near) := by
  cases d <;> rfl

theorem exists_mk (d : Side) (h : t ≠ leaf) : ∃ b k near far, t = mk d b k near far := by
  cases t with
  | leaf => exact absurd rfl h
  | node b l k r => exact ⟨b, k, _, _, eq_mk d b l k r⟩

theorem root?_eq_none : t.root? = none ↔ t = leaf := by
  cases t <;> simp [root?]

theorem mem_keys_of_root? (h : t.root? = some k) : k ∈ t.keys := by
  cases t with
  | leaf => simp [root?] at h
  | node b l k' r =>
    simp only [root?, Option.some.injEq] at h
    simp [keys, h]

/-- The list of a tree has its keys. -/
theorem coe_toList (t : CTree ι) : (t.toList : Multiset ι) = t.keys := by
  induction t with
  | leaf => rfl
  | node b l k r ihl ihr =>
    rw [toList, keys, ← coe_add, ← cons_coe, ihl, ihr, add_cons]

theorem mem_toList : k ∈ t.toList ↔ k ∈ t.keys := by
  rw [← coe_toList, mem_coe]

theorem nodup_toList : t.toList.Nodup ↔ t.keys.Nodup := by
  rw [← coe_toList, coe_nodup]

theorem toList_mk_left (b : Bool) (k : ι) (near far : CTree ι) :
    (mk .left b k near far).toList = near.toList ++ k :: far.toList := rfl

theorem toList_mk_right (b : Bool) (k : ι) (near far : CTree ι) :
    (mk .right b k near far).toList = far.toList ++ k :: near.toList := rfl

/-- The in-order sequence of a node only depends on those of its subtrees. -/
theorem toList_mk_congr (d : Side) {b b' : Bool} {near near' far far' : CTree ι}
    (hn : near.toList = near'.toList) (hf : far.toList = far'.toList) :
    (mk d b k near far).toList = (mk d b' k near' far').toList := by
  cases d
  · rw [toList_mk_left, toList_mk_left, hn, hf]
  · rw [toList_mk_right, toList_mk_right, hn, hf]

/-- A rotation keeps the order of the keys. -/
theorem toList_rotate (d : Side) (b1 b2 b3 b4 : Bool) (p q : ι) (a b e : CTree ι) :
    (mk d b1 q (mk d b2 p a b) e).toList = (mk d b3 p a (mk d b4 q b e)).toList := by
  cases d <;> simp [mk, toList]

end CTree

/-! ## Paths -/

/-- One step of a path: the node `key` whose subtree on side `side` the path goes into, and its
other subtree. -/
structure Frame (ι : Type*) where
  side : Side
  black : Bool
  key : ι
  sib : CTree ι

/-- A path, innermost frame first. -/
abbrev TPath (ι : Type*) := List (Frame ι)

namespace Frame

variable {ι : Type*}

/-- The node of the frame around a subtree. -/
def fill (f : Frame ι) (t : CTree ι) : CTree ι := CTree.mk f.side f.black f.key t f.sib

@[simp] theorem root?_fill (f : Frame ι) (t : CTree ι) : (f.fill t).root? = some f.key :=
  CTree.root?_mk ..

@[simp] theorem keys_fill (f : Frame ι) (t : CTree ι) :
    (f.fill t).keys = f.key ::ₘ (t.keys + f.sib.keys) :=
  CTree.keys_mk ..

end Frame

namespace TPath

variable {ι : Type*}

/-- The whole tree around a subtree. -/
def fill : TPath ι → CTree ι → CTree ι
  | [], t => t
  | f :: up, t => fill up (f.fill t)

/-- The node above the place reached. -/
def parent? : TPath ι → Option ι
  | [] => none
  | f :: _ => some f.key

/-- The keys on the path and in its other subtrees. -/
def keys : TPath ι → Multiset ι
  | [] => 0
  | f :: up => f.key ::ₘ (f.sib.keys + keys up)

/-- What comes before the subtree in order. -/
def before : TPath ι → List ι
  | [] => []
  | f :: up => before up ++ f.side.pick [] (f.sib.toList ++ [f.key])

/-- What comes after the subtree in order. -/
def after : TPath ι → List ι
  | [] => []
  | f :: up => f.side.pick (f.key :: f.sib.toList) [] ++ after up

@[simp] theorem fill_nil (t : CTree ι) : fill [] t = t := rfl

theorem fill_cons (f : Frame ι) (up : TPath ι) (t : CTree ι) :
    fill (f :: up) t = fill up (f.fill t) :=
  rfl

theorem fill_append (p q : TPath ι) (t : CTree ι) : fill (p ++ q) t = fill q (fill p t) := by
  induction p generalizing t with
  | nil => rfl
  | cons f p ih => exact ih (f.fill t)

@[simp] theorem keys_fill (p : TPath ι) (t : CTree ι) : (fill p t).keys = keys p + t.keys := by
  induction p generalizing t with
  | nil => simp [fill, keys]
  | cons f up ih =>
    rw [fill, ih, keys, Frame.keys_fill, add_cons, cons_add]
    congr 1
    ac_rfl

variable {t : CTree ι} {p : TPath ι}

theorem nodup_fill_cons {f : Frame ι} {up : TPath ι} (h : (fill (f :: up) t).keys.Nodup) :
    (∀ k ∈ t.keys, k ∉ keys [f]) ∧ (∀ k ∈ keys up, k ∉ keys [f]) ∧ (keys [f]).Nodup := by
  rw [← List.singleton_append, fill_append, keys_fill, keys_fill, nodup_add,
    nodup_add, disjoint_left, disjoint_left] at h
  obtain ⟨_, ⟨hf, _, hft⟩, hup⟩ := h
  exact ⟨fun k hk hkf => hft hkf hk, fun k hk hkf => hup hk (mem_add.mpr (.inl hkf)), hf⟩

theorem length_le_card (p : TPath ι) : p.length ≤ p.keys.card := by
  induction p with
  | nil => simp
  | cons f up ih =>
    rw [keys, card_cons, card_add, List.length_cons]
    omega

/-- The keys before the hole of a path, those of the subtree, and those after. -/
@[simp] theorem toList_fill (p : TPath ι) (t : CTree ι) :
    (fill p t).toList = before p ++ t.toList ++ after p := by
  induction p generalizing t with
  | nil => simp [fill, before, after]
  | cons f up ih =>
    rw [fill, ih, before, after]
    obtain ⟨side, b, k, sib⟩ := f
    cases side <;> simp [Frame.fill, CTree.mk, CTree.toList, Side.pick]

/-- The root of a filled path is the top frame, or the subtree itself. -/
theorem fill_ne_leaf (h : t ≠ CTree.leaf) : fill p t ≠ CTree.leaf := by
  induction p generalizing t with
  | nil => exact h
  | cons f up ih => exact ih (CTree.mk_ne_leaf _ _ _ _ _)

theorem root?_fill_congr (p : TPath ι) {t' : CTree ι} (h : t.root? = t'.root?) :
    (fill p t).root? = (fill p t').root? := by
  induction p generalizing t t' with
  | nil => exact h
  | cons f up ih => exact ih (by simp)

/-- The same tree seen from the other subtree of the innermost frame. -/
theorem fill_swap (f : Frame ι) (up : TPath ι) (t : CTree ι) :
    fill (f :: up) t = fill (⟨f.side.other, f.black, f.key, t⟩ :: up) f.sib := by
  rw [fill_cons, fill_cons, Frame.fill, Frame.fill, CTree.mk_other]

theorem before_append (p q : TPath ι) : before (p ++ q) = before q ++ before p := by
  induction p with
  | nil => simp [before]
  | cons f p ih => rw [List.cons_append, before, ih, before, List.append_assoc]

theorem after_append (p q : TPath ι) : after (p ++ q) = after p ++ after q := by
  induction p with
  | nil => simp [after]
  | cons f p ih => rw [List.cons_append, after, ih, after, List.append_assoc]

theorem after_eq_nil (h : ∀ f ∈ p, f.side = .right) : after p = [] := by
  induction p with
  | nil => rfl
  | cons f up ih =>
    rw [after, h f (by simp), ih fun g hg => h g (by simp [hg])]
    rfl

theorem before_eq_nil (h : ∀ f ∈ p, f.side = .left) : before p = [] := by
  induction p with
  | nil => rfl
  | cons f up ih =>
    rw [before, h f (by simp), ih fun g hg => h g (by simp [hg])]
    rfl

/-- Every key is the root of a subtree. -/
theorem exists_fill_of_mem {k : ι} (h : k ∈ t.keys) :
    ∃ (p : TPath ι) (b : Bool) (l r : CTree ι), t = fill p (CTree.node b l k r) := by
  induction t with
  | leaf => simp [CTree.keys] at h
  | node b l k' r ihl ihr =>
    rw [CTree.keys, mem_cons, mem_add] at h
    rcases h with rfl | h | h
    · exact ⟨[], b, l, r, rfl⟩
    · obtain ⟨p, b', l', r', rfl⟩ := ihl h
      exact ⟨p ++ [⟨.left, b, k', r⟩], b', l', r', by rw [fill_append]; rfl⟩
    · obtain ⟨p, b', l', r', rfl⟩ := ihr h
      exact ⟨p ++ [⟨.right, b, k', l⟩], b', l', r', by rw [fill_append]; rfl⟩

/-- The list without the root of the subtree. -/
theorem toList_fill_erase [DecidableEq ι] {b : Bool} {l r : CTree ι} {k : ι}
    (hnd : (fill p (CTree.node b l k r)).keys.Nodup) :
    (fill p (CTree.node b l k r)).toList.erase k =
      before p ++ (l.toList ++ r.toList) ++ after p := by
  rw [← CTree.nodup_toList] at hnd
  simp only [toList_fill, CTree.toList, List.append_assoc, List.cons_append] at hnd ⊢
  rw [← List.append_assoc] at hnd ⊢
  rw [List.erase_append_right _ fun hm => (List.disjoint_of_nodup_append hnd) hm (by simp),
    List.erase_cons_head]
  simp

/-- The last node of the left subtree in the place of the node at the end of a path. -/
theorem toList_fill_last {q : TPath ι} {b : Bool} {x : ι} {l r : CTree ι}
    (hq : ∀ f ∈ q, f.side = .right) :
    (fill (q ++ ⟨.left, b, x, r⟩ :: p) l).toList =
      before p ++ (before q ++ l.toList ++ [x] ++ r.toList) ++ after p := by
  rw [fill_append, fill_cons, toList_fill, Frame.fill, CTree.toList_mk_left, toList_fill,
    after_eq_nil hq]
  simp

end TPath

/-! ## Search trees -/

section Order

variable {ι : Type*} [LinearOrder ι]

/-- The key `y` is on side `d` of `x`. -/
def Side.Lt (d : Side) (x y : ι) : Prop := d.pick (y < x) (x < y)

variable {d : Side} {x y : ι}

theorem Side.Lt.not_other (h : d.Lt x y) : ¬d.other.Lt x y := by
  cases d
  · exact lt_asymm h
  · exact lt_asymm h

theorem Side.Lt.trans {z : ι} (h : d.Lt x y) (h' : d.Lt y z) : d.Lt x z := by
  cases d
  · exact lt_trans h' h
  · exact lt_trans h h'

theorem Side.Lt.symm (h : d.Lt x y) : d.other.Lt y x := by
  cases d
  · exact h
  · exact h

/-- In a search tree the subtree on side `d` is on that side of its node. -/
theorem TPath.lt_of_sorted {p : TPath ι} {b : Bool} {k : ι} {near far : CTree ι}
    (h : (p.fill (.mk d b k near far)).toList.Pairwise (· < ·)) (hx : x ∈ near.keys) :
    d.Lt k x := by
  rw [toList_fill, List.pairwise_append] at h
  have h' := (List.pairwise_append.mp h.1).2.1
  rw [← CTree.mem_toList] at hx
  cases d with
  | left => exact (List.pairwise_append.mp h').2.2 x hx k (by simp)
  | right => exact (List.pairwise_cons.mp (List.pairwise_append.mp h').2.1).1 x hx

end Order

/-! ## Renaming keys -/

section Map

variable {ι κ : Type*} (g : ι → κ)

/-- The tree with renamed keys. -/
def CTree.map : CTree ι → CTree κ
  | .leaf => .leaf
  | .node b l k r => .node b l.map (g k) r.map

/-- The frame with renamed keys. -/
def Frame.map (f : Frame ι) : Frame κ := ⟨f.side, f.black, g f.key, f.sib.map g⟩

theorem CTree.map_mk (d : Side) (b : Bool) (k : ι) (near far : CTree ι) :
    (CTree.mk d b k near far).map g = .mk d b (g k) (near.map g) (far.map g) := by
  cases d <;> rfl

/-- The keys of a relabelled tree. -/
theorem CTree.keys_map (t : CTree ι) : (t.map g).keys = t.keys.map g := by
  induction t with
  | leaf => rfl
  | node b l k r ihl ihr => simp [CTree.map, CTree.keys, ihl, ihr]

theorem CTree.root?_map (t : CTree ι) : (t.map g).root? = t.root?.map g := by cases t <;> rfl

theorem TPath.map_fill (p : TPath ι) (t : CTree ι) :
    (p.fill t).map g = TPath.fill (p.map (Frame.map g)) (t.map g) := by
  induction p generalizing t with
  | nil => rfl
  | cons f up ih =>
    rw [TPath.fill_cons, ih, List.map_cons, TPath.fill_cons, Frame.fill, CTree.map_mk]
    rfl

theorem CTree.map_eq_self {g : ι → ι} {t : CTree ι} (h : ∀ k ∈ t.keys, g k = k) : t.map g = t := by
  induction t with
  | leaf => rfl
  | node b l k r ihl ihr =>
    simp only [CTree.keys, mem_cons, mem_add] at h
    rw [CTree.map, ihl fun x hx => h x (.inr (.inl hx)), ihr fun x hx => h x (.inr (.inr hx)),
      h k (.inl rfl)]

theorem TPath.map_eq_self {g : ι → ι} {p : TPath ι} (h : ∀ k ∈ p.keys, g k = k) :
    p.map (Frame.map g) = p := by
  induction p with
  | nil => rfl
  | cons f up ih =>
    simp only [TPath.keys, mem_cons, mem_add] at h
    rw [List.map_cons, ih fun x hx => h x (.inr (.inr hx)), Frame.map,
      CTree.map_eq_self fun x hx => h x (.inr (.inl hx)), h _ (.inl rfl)]

end Map

end Pptk.Lib
