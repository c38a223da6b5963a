import Pptk.Lib.CTree

/-!
# Trees in a heap of linked nodes

A heap maps each node to its colour and its three links. `Shape h par t` says
that the nodes of `t` are linked in `h` as in `t`, with `par` above the root.
The operations of a pointer implementation are changes of the heap, each with
the tree it makes:

* `rotate`, `shape_rotate`: a rotation;
* `paint`, `shape_paint`: new colours;
* `attach`, `shape_attach`: a new node below a missing child;
* `splice`, `shape_splice`: a node with at most one child is taken out;
* `relabel`, `shape_relabel`: two nodes change places.

`Shape.parent_of_child`, `Shape.child_of_parent` and the lemmas after them read
the links of a heap that has the shape of a tree.
-/

namespace Pptk.Lib

open Function TPath Multiset Option

/-- A node of a linked tree. -/
@[ext] structure PNode (ι : Type*) where
  black : Bool
  left : Option ι
  right : Option ι
  parent : Option ι
deriving DecidableEq, Repr

/-- The nodes of a linked tree by their address. -/
abbrev Heap (ι : Type*) := ι → PNode ι

namespace PNode

variable {ι : Type*}

/-- The link on side `d`. -/
def child (n : PNode ι) (d : Side) : Option ι := d.pick n.left n.right

/-- The node with another link on side `d`. -/
def setChild (n : PNode ι) (d : Side) (x : Option ι) : PNode ι :=
  match d with
  | .left => { n with left := x }
  | .right => { n with right := x }

/-- A node from its links on side `d` and on the other side. -/
def mk' (d : Side) (black : Bool) (near far parent : Option ι) : PNode ι :=
  ⟨black, d.pick near far, d.pick far near, parent⟩

section Simp

variable (n : PNode ι) (d : Side) (x : Option ι) (b : Bool) (near far par : Option ι)

@[simp] theorem child_setChild : (n.setChild d x).child d = x := by cases d <;> rfl

@[simp] theorem child_other_setChild : (n.setChild d x).child d.other = n.child d.other := by
  cases d <;> rfl

@[simp] theorem black_setChild : (n.setChild d x).black = n.black := by cases d <;> rfl

@[simp] theorem parent_setChild : (n.setChild d x).parent = n.parent := by cases d <;> rfl

@[simp] theorem child_mk' : (mk' d b near far par).child d = near := by cases d <;> rfl

@[simp] theorem child_other_mk' : (mk' d b near far par).child d.other = far := by cases d <;> rfl

@[simp] theorem black_mk' : (mk' d b near far par).black = b := rfl

@[simp] theorem parent_mk' : (mk' d b near far par).parent = par := rfl

@[simp] theorem setChild_mk' : (mk' d b near far par).setChild d x = mk' d b x far par := by
  cases d <;> rfl

theorem mk'_other : mk' d.other b near far par = mk' d b far near par := by cases d <;> rfl

theorem child_setChild_eq (e : Side) :
    (n.setChild d x).child e = if e = d then x else n.child e := by
  cases d <;> cases e <;> rfl

@[simp] theorem child_withParent : ({ n with parent := x } : PNode ι).child d = n.child d := by
  cases d <;> rfl

@[simp] theorem child_withBlack : ({ n with black := b } : PNode ι).child d = n.child d := by
  cases d <;> rfl

theorem ext_side {n m : PNode ι} (d : Side) (h1 : n.black = m.black) (h2 : n.child d = m.child d)
    (h3 : n.child d.other = m.child d.other) (h4 : n.parent = m.parent) : n = m := by
  cases d
  · exact PNode.ext h1 h2 h3 h4
  · exact PNode.ext h1 h3 h2 h4

end Simp

end PNode

section Shape

variable {ι : Type*}

/-- The nodes of `t` are linked in `h` as in `t`, below `par`. -/
def Shape (h : Heap ι) : Option ι → CTree ι → Prop
  | _, .leaf => True
  | par, .node b l k r =>
    h k = ⟨b, l.root?, r.root?, par⟩ ∧ Shape h (some k) l ∧ Shape h (some k) r

instance Shape.decidable [DecidableEq ι] (h : Heap ι) : ∀ par t, Decidable (Shape h par t)
  | _, .leaf => .isTrue trivial
  | par, .node b l k r =>
    have := Shape.decidable h (some k) l
    have := Shape.decidable h (some k) r
    inferInstanceAs (Decidable (h k = ⟨b, l.root?, r.root?, par⟩ ∧ _ ∧ _))

/-- The nodes of the path `p` and of its other subtrees are linked in `h` as in `p`, with `x` at the
place reached. -/
def PathShape (h : Heap ι) : TPath ι → Option ι → Prop
  | [], _ => True
  | f :: up, x =>
    h f.key = PNode.mk' f.side f.black x f.sib.root? (parent? up) ∧
      Shape h (some f.key) f.sib ∧ PathShape h up (some f.key)

variable {h h' : Heap ι} {par : Option ι}

theorem shape_mk (d : Side) (b : Bool) (k : ι) (near far : CTree ι) :
    Shape h par (.mk d b k near far) ↔
      h k = PNode.mk' d b near.root? far.root? par ∧ Shape h (some k) near ∧
        Shape h (some k) far := by
  cases d
  · exact Iff.rfl
  · exact and_congr_right fun _ => and_comm

theorem shape_fill (p : TPath ι) (t : CTree ι) :
    Shape h none (p.fill t) ↔ PathShape h p t.root? ∧ Shape h p.parent? t := by
  induction p generalizing t with
  | nil => simp [PathShape, parent?]
  | cons f up ih =>
    rw [fill_cons, ih, Frame.root?_fill, Frame.fill, shape_mk, PathShape, parent?]
    tauto

variable {t : CTree ι} {k x : ι}

theorem Shape.congr (hs : Shape h par t) (heq : ∀ k ∈ t.keys, h' k = h k) : Shape h' par t := by
  induction t generalizing par with
  | leaf => trivial
  | node b l k r ihl ihr =>
    obtain ⟨h1, h2, h3⟩ := hs
    simp only [CTree.keys, mem_cons, mem_add] at heq
    exact ⟨by rw [heq k (.inl rfl), h1], ihl h2 fun x hx => heq x (.inr (.inl hx)),
      ihr h3 fun x hx => heq x (.inr (.inr hx))⟩

theorem Shape.unique {par' : Option ι} {t' : CTree ι} (hs : Shape h par t) (hs' : Shape h par' t')
    (hroot : t.root? = t'.root?) : t = t' := by
  induction t generalizing par par' t' with
  | leaf => exact (CTree.root?_eq_none.mp hroot.symm).symm
  | node b l k r ihl ihr =>
    cases t' with
    | leaf => simp [CTree.root?] at hroot
    | node b' l' k' r' =>
      obtain rfl : k = k' := by simpa [CTree.root?] using hroot
      obtain ⟨h1, h2, h3⟩ := hs
      obtain ⟨h1', h2', h3'⟩ := hs'
      rw [h1, PNode.mk.injEq] at h1'
      rw [ihl h2 h2' h1'.2.1, ihr h3 h3' h1'.2.2.1, h1'.1]

/-- A subtree is moved below another node: only the link up from its root changes. -/
theorem Shape.reparent [DecidableEq ι] {par' : Option ι} (hs : Shape h par t) (hnd : t.keys.Nodup)
    (heq : ∀ k ∈ t.keys, h' k = if t.root? = some k then { h k with parent := par' } else h k) :
    Shape h' par' t := by
  cases t with
  | leaf => trivial
  | node b l k r =>
    obtain ⟨h1, h2, h3⟩ := hs
    simp only [CTree.keys, mem_cons, mem_add, nodup_cons, not_or] at heq hnd
    refine ⟨?_, h2.congr fun x hx => ?_, h3.congr fun x hx => ?_⟩
    · rw [heq k (.inl rfl), h1]
      exact if_pos rfl
    · rw [heq x (.inr (.inl hx)), if_neg]
      simp only [CTree.root?, some.injEq]
      rintro rfl
      exact hnd.1.1 hx
    · rw [heq x (.inr (.inr hx)), if_neg]
      simp only [CTree.root?, some.injEq]
      rintro rfl
      exact hnd.1.2 hx

theorem PathShape.congr {p : TPath ι} {x : Option ι} (hs : PathShape h p x)
    (heq : ∀ k ∈ p.keys, h' k = h k) : PathShape h' p x := by
  induction p generalizing x with
  | nil => trivial
  | cons f up ih =>
    obtain ⟨h1, h2, h3⟩ := hs
    simp only [TPath.keys, mem_cons, mem_add] at heq
    exact ⟨by rw [heq _ (.inl rfl), h1], h2.congr fun k hk => heq k (.inr (.inl hk)),
      ih h3 fun k hk => heq k (.inr (.inr hk))⟩

/-- Another root at the place reached: only the link down from the node above it changes. -/
theorem PathShape.relink {f : Frame ι} {up : TPath ι} {x y : Option ι}
    (hs : PathShape h (f :: up) x) (hnd : (TPath.keys (f :: up)).Nodup)
    (hf : h' f.key = (h f.key).setChild f.side y)
    (heq : ∀ k ∈ TPath.keys (f :: up), k ≠ f.key → h' k = h k) : PathShape h' (f :: up) y := by
  obtain ⟨h1, h2, h3⟩ := hs
  simp only [TPath.keys, mem_cons, mem_add, nodup_cons, not_or] at heq hnd
  refine ⟨by rw [hf, h1, PNode.setChild_mk'], h2.congr fun k hk => ?_, h3.congr fun k hk => ?_⟩
  · exact heq k (.inr (.inl hk)) fun he => hnd.1.1 (he ▸ hk)
  · exact heq k (.inr (.inr hk)) fun he => hnd.1.2 (he ▸ hk)

theorem Shape.parent_of_root (hs : Shape h par t) (hk : t.root? = some k) : (h k).parent = par := by
  cases t with
  | leaf => simp [CTree.root?] at hk
  | node b l k' r =>
    obtain ⟨h1, _, _⟩ := hs
    simp only [CTree.root?, some.injEq] at hk
    subst hk
    rw [h1]

/-- The node above the place reached is the key of the innermost frame. -/
theorem TPath.mem_keys_of_parent? {p : TPath ι} (hk : p.parent? = some k) : k ∈ p.keys := by
  cases p with
  | nil => simp [parent?] at hk
  | cons f up =>
    simp only [parent?, some.injEq] at hk
    simp [TPath.keys, hk]

/-! ## Reading links -/

theorem Shape.parent_of_child (hs : Shape h none t) (hk : k ∈ t.keys) {d : Side}
    (hx : (h k).child d = some x) : x ∈ t.keys ∧ (h x).parent = some k := by
  obtain ⟨p, b, l, r, rfl⟩ := exists_fill_of_mem hk
  rw [CTree.eq_mk d, shape_fill, shape_mk] at hs
  obtain ⟨_, h1, h2, _⟩ := hs
  rw [h1, PNode.child_mk'] at hx
  refine ⟨?_, h2.parent_of_root hx⟩
  have := CTree.mem_keys_of_root? hx
  rw [keys_fill, CTree.eq_mk d, CTree.keys_mk]
  simp [this]

theorem Shape.child_of_parent (hs : Shape h none t) (hk : k ∈ t.keys) (hx : (h k).parent = some x) :
    x ∈ t.keys ∧ ∃ d, (h x).child d = some k := by
  obtain ⟨p, b, l, r, rfl⟩ := exists_fill_of_mem hk
  rw [shape_fill] at hs
  obtain ⟨h1, h2, _⟩ := hs
  rw [h2] at hx
  cases p with
  | nil => simp [parent?] at hx
  | cons f up =>
    simp only [parent?, some.injEq] at hx
    subst hx
    refine ⟨by simp [TPath.keys], f.side, ?_⟩
    rw [h1.1, PNode.child_mk']
    rfl

/-- The two children of a node are different nodes, and not the node itself. -/
theorem Shape.child_ne (hs : Shape h none t) (hnd : t.keys.Nodup) (hk : k ∈ t.keys) {d : Side}
    (hx : (h k).child d = some x) : x ≠ k ∧ (h k).child d.other ≠ some x := by
  obtain ⟨p, b, l, r, rfl⟩ := exists_fill_of_mem hk
  rw [CTree.eq_mk d, shape_fill, shape_mk] at hs
  obtain ⟨_, h1, _, _⟩ := hs
  rw [h1, PNode.child_mk'] at hx
  rw [keys_fill, CTree.eq_mk d, CTree.keys_mk, nodup_add, nodup_cons,
    mem_add, not_or, nodup_add, disjoint_left] at hnd
  obtain ⟨_, ⟨⟨h2, _⟩, _, _, h3⟩, _⟩ := hnd
  refine ⟨?_, ?_⟩
  · rintro rfl
    exact h2 (CTree.mem_keys_of_root? hx)
  · rw [h1, PNode.child_other_mk']
    intro hx'
    exact h3 (CTree.mem_keys_of_root? hx) (CTree.mem_keys_of_root? hx')

end Shape

/-! ## Rotations -/

section Linked

variable {ι : Type*} {h : Heap ι}

/-- The links between the nodes of `S` go both ways. -/
structure Linked (h : Heap ι) (S : Multiset ι) : Prop where
  left : ∀ k ∈ S, ∀ x, (h k).left = some x →
    x ∈ S ∧ (h x).parent = some k ∧ x ≠ k ∧ (h k).right ≠ some x
  right : ∀ k ∈ S, ∀ x, (h k).right = some x →
    x ∈ S ∧ (h x).parent = some k ∧ x ≠ k ∧ (h k).left ≠ some x
  parent : ∀ k ∈ S, ∀ x, (h k).parent = some x →
    x ∈ S ∧ ((h x).left = some k ∨ (h x).right = some k)

theorem Shape.linked {t : CTree ι} (hs : Shape h none t) (hnd : t.keys.Nodup) :
    Linked h t.keys := by
  refine ⟨fun k hk x hx => ?_, fun k hk x hx => ?_, fun k hk x hx => ?_⟩
  · obtain ⟨h1, h2⟩ := hs.parent_of_child (d := .left) hk hx
    exact ⟨h1, h2, hs.child_ne (d := .left) hnd hk hx⟩
  · obtain ⟨h1, h2⟩ := hs.parent_of_child (d := .right) hk hx
    exact ⟨h1, h2, hs.child_ne (d := .right) hnd hk hx⟩
  · obtain ⟨h1, d, hd⟩ := hs.child_of_parent hk hx
    cases d with
    | left => exact ⟨h1, .inl hd⟩
    | right => exact ⟨h1, .inr hd⟩

theorem Linked.child_ne {S : Multiset ι} (hl : Linked h S) {k z : ι} (hz : z ∈ S)
    (hp : (h k).parent ≠ some z) (d : Side) : (h z).child d ≠ some k := by
  intro he
  cases d with
  | left => exact hp (hl.left z hz k he).2.1
  | right => exact hp (hl.right z hz k he).2.1

end Linked

section Rotatable

variable {ι : Type*}

/-- What the rotation of `p` to side `d` needs of the nodes around it. -/
structure Rotatable (d : Side) (h : Heap ι) (p q : ι) : Prop where
  ne : p ≠ q
  child : (h p).child d.other = some q
  near : ∀ k, (h p).child d = some k → (h k).parent = some p ∧ k ≠ p ∧ k ≠ q
  inner : ∀ k, (h q).child d = some k → k ≠ p ∧ k ≠ q
  far : ∀ k, (h q).child d.other = some k →
    (h k).parent = some q ∧ k ≠ p ∧ k ≠ q ∧ (h q).child d ≠ some k
  above : ∀ u, (h p).parent = some u →
    (u ≠ p ∧ u ≠ q) ∧ ((h u).left = some p ∨ (h u).right = some p) ∧
      (h p).child d ≠ some u ∧ (h q).child d ≠ some u ∧ (h q).child d.other ≠ some u

theorem rotatable_of_shape {d : Side} {h : Heap ι} {C : TPath ι} {c c' : Bool} {p q : ι}
    {a b e : CTree ι} (hs : Shape h none (C.fill (.mk d c p a (.mk d c' q b e))))
    (hnd : (C.fill (.mk d c p a (.mk d c' q b e))).keys.Nodup) : Rotatable d h p q := by
  have hsh := hs
  simp only [shape_fill, shape_mk, CTree.root?_mk] at hs
  obtain ⟨hC, hp, ha, hq, hb, he⟩ := hs
  have hpk : p ∈ (C.fill (.mk d c p a (.mk d c' q b e))).keys := by simp
  simp only [keys_fill, CTree.keys_mk, nodup_add, nodup_cons,
    disjoint_left, mem_add, mem_cons, not_or] at hnd
  obtain ⟨hndC, ⟨⟨hpa, hpq, hpb, hpe⟩, hnda, ⟨⟨hqb, hqe⟩, hndb, hnde, hbe⟩, hax⟩, hCx⟩ := hnd
  have hpd : (h p).child d = a.root? := by rw [hp, PNode.child_mk']
  have hpo : (h p).child d.other = some q := by rw [hp, PNode.child_other_mk']
  have hqd : (h q).child d = b.root? := by rw [hq, PNode.child_mk']
  have hqo : (h q).child d.other = e.root? := by rw [hq, PNode.child_other_mk']
  have hpp : (h p).parent = C.parent? := by rw [hp, PNode.parent_mk']
  have hrm : ∀ {t : CTree ι} {k}, t.root? = some k → k ∈ t.keys := CTree.mem_keys_of_root?
  refine ⟨hpq, hpo, fun k hk => ?_, fun k hk => ?_, fun k hk => ?_, fun u hu => ?_⟩
  · rw [hpd] at hk
    exact ⟨ha.parent_of_root hk, fun he => hpa (he ▸ hrm hk), (hax (hrm hk)).1⟩
  · rw [hqd] at hk
    exact ⟨fun he => hpb (he ▸ hrm hk), fun he => hqb (he ▸ hrm hk)⟩
  · rw [hqo] at hk
    refine ⟨he.parent_of_root hk, fun he => hpe (he ▸ hrm hk), fun he => hqe (he ▸ hrm hk), ?_⟩
    rw [hqd]
    exact fun hk' => hbe (hrm hk') (hrm hk)
  · obtain ⟨_, d', hd'⟩ := hsh.child_of_parent hpk hu
    rw [hpp] at hu
    have := hCx (mem_keys_of_parent? hu)
    refine ⟨⟨this.1, this.2.2.1⟩, ?_, ?_, ?_, ?_⟩
    · cases d' with
      | left => exact .inl hd'
      | right => exact .inr hd'
    · rw [hpd]; exact fun hk => this.2.1 (hrm hk)
    · rw [hqd]; exact fun hk => this.2.2.2.1 (hrm hk)
    · rw [hqo]; exact fun hk => this.2.2.2.2 (hrm hk)

end Rotatable

section Rotate

variable {ι : Type*} [DecidableEq ι] {h : Heap ι}

/-- The side of `k` on which `x` hangs, found by comparing the left link. -/
def sideOf (h : Heap ι) (k x : ι) : Side := if (h k).left = some x then .left else .right

variable {k x : ι} {d : Side} {p q : ι}

theorem sideOf_eq (hd : (h k).child d = some x) (ho : (h k).child d.other ≠ some x) :
    sideOf h k x = d := by
  unfold sideOf
  cases d
  · exact if_pos hd
  · exact if_neg ho

theorem sideOf_congr {h' : Heap ι} (hl : (h' k).left = (h k).left) :
    sideOf h' k x = sideOf h k x := by
  simp [sideOf, hl]

theorem PathShape.sideOf_eq {f : Frame ι} {up : TPath ι} (hs : PathShape h (f :: up) (some x))
    (hx : x ∉ TPath.keys (f :: up)) : sideOf h f.key x = f.side := by
  obtain ⟨h1, _, _⟩ := hs
  refine Lib.sideOf_eq (by rw [h1, PNode.child_mk']) ?_
  rw [h1, PNode.child_other_mk']
  exact fun hr => hx (by simp [TPath.keys, CTree.mem_keys_of_root? hr])

/-- The rotation that moves `p` down to side `d` of its child `q` on the other side. -/
def rotate (d : Side) (h : Heap ι) (p q : ι) : Heap ι := fun k =>
  if k = p then { (h p).setChild d.other ((h q).child d) with parent := some q }
  else if k = q then { (h q).setChild d (some p) with parent := (h p).parent }
  else if (h q).child d = some k then { h k with parent := some p }
  else if (h p).parent = some k then
    (h k).setChild (sideOf h k p) (some q)
  else h k

theorem rotate_of_ne (h1 : k ≠ p) (h2 : k ≠ q) (h3 : (h q).child d ≠ some k)
    (h4 : (h p).parent ≠ some k) : rotate d h p q k = h k := by
  rw [rotate, if_neg h1, if_neg h2, if_neg h3, if_neg h4]

theorem rotate_black (d : Side) (p q k : ι) : (rotate d h p q k).black = (h k).black := by
  unfold rotate
  split_ifs <;> simp_all

theorem rotate_child (d e : Side) (p q k : ι) : (rotate d h p q k).child e =
    if k = p ∧ e = d.other then (h q).child d
    else if k ≠ p ∧ k = q ∧ e = d then some p
    else if (k ≠ p ∧ k ≠ q ∧ (h q).child d ≠ some k) ∧ (h p).parent = some k ∧ e = sideOf h k p then
      some q
    else (h k).child e := by
  by_cases hp : k = p
  · subst hp
    simp only [rotate, if_pos, PNode.child_withParent, PNode.child_setChild_eq]
    grind
  by_cases hq : k = q
  · subst hq
    simp only [rotate, if_neg hp, if_pos, PNode.child_withParent, PNode.child_setChild_eq]
    grind
  simp only [rotate, if_neg hp, if_neg hq]
  split_ifs <;> simp_all [PNode.child_setChild_eq]

theorem rotate_parent (d : Side) (p q k : ι) : (rotate d h p q k).parent =
    if k = p then some q
    else if k = q then (h p).parent
    else if (h q).child d = some k then some p
    else (h k).parent := by
  unfold rotate
  split_ifs <;> simp

/-- The only link that a rotation may cut is that of `p` to `q`. -/
theorem child_of_rotate_child {e : Side} (hk : (rotate d h p q k).child e = none) :
    (h k).child e = none ∨ k = p ∧ e = d.other ∧ (h q).child d = none := by
  unfold rotate at hk
  split_ifs at hk with h1 h2 h3 h4
  · subst h1
    rw [PNode.child_withParent] at hk
    by_cases he : e = d.other
    · subst he
      rw [PNode.child_setChild] at hk
      exact .inr ⟨rfl, rfl, hk⟩
    · rw [Side.eq_other_of_ne he, PNode.child_other_setChild] at hk
      rw [Side.eq_other_of_ne he]
      exact .inl hk
  · subst h2
    rw [PNode.child_withParent] at hk
    by_cases he : e = d
    · subst he
      simp at hk
    · rw [Side.eq_other_of_ne he, PNode.child_other_setChild] at hk
      rw [Side.eq_other_of_ne he]
      exact .inl hk
  · exact .inl (by rwa [PNode.child_withParent] at hk)
  · by_cases he : e = sideOf h k p
    · subst he
      simp at hk
    · rw [Side.eq_other_of_ne he, PNode.child_other_setChild] at hk
      rw [Side.eq_other_of_ne he]
      exact .inl hk
  · exact .inl hk

/-- A rotation of a linked tree. -/
theorem shape_rotate {C : TPath ι} {c c' : Bool} {a b e : CTree ι}
    (hs : Shape h none (C.fill (.mk d c p a (.mk d c' q b e))))
    (hnd : (C.fill (.mk d c p a (.mk d c' q b e))).keys.Nodup) :
    Shape (rotate d h p q) none (C.fill (.mk d c' q (.mk d c p a b) e)) := by
  simp only [shape_fill, shape_mk, CTree.root?_mk] at hs ⊢
  obtain ⟨hC, hp, ha, hq, hb, he⟩ := hs
  simp only [keys_fill, CTree.keys_mk, nodup_add, nodup_cons,
    disjoint_left, mem_add, mem_cons, not_or] at hnd
  obtain ⟨hndC, ⟨⟨hpa, hpq, hpb, hpe⟩, hnda, ⟨⟨hqb, hqe⟩, hndb, hnde, hbe⟩, hax⟩, hCx⟩ := hnd
  have hparent : ∀ k, C.parent? = some k → k ∈ C.keys := fun k hk => mem_keys_of_parent? hk
  have hroot : ∀ k, b.root? = some k → k ∈ b.keys := fun k hk => CTree.mem_keys_of_root? hk
  have hqd : (h q).child d = b.root? := by rw [hq, PNode.child_mk']
  have hpp : (h p).parent = C.parent? := by rw [hp, PNode.parent_mk']
  refine ⟨?_, ?_, ⟨?_, ha.congr fun k hk => ?_, hb.reparent hndb fun k hk => ?_⟩,
    he.congr fun k hk => ?_⟩
  · cases C with
    | nil => trivial
    | cons f up =>
      have hfk : f.key ∈ TPath.keys (f :: up) := by simp [TPath.keys]
      refine hC.relink hndC ?_ fun k hk hne => ?_
      · have hside := hC.sideOf_eq fun hk => (hCx hk).1 rfl
        have := hCx hfk
        have h3 : (h q).child d ≠ some f.key := by
          rw [hqd]; exact fun hb' => this.2.2.2.1 (hroot _ hb')
        rw [rotate, if_neg this.1, if_neg this.2.2.1, if_neg h3, if_pos (by rw [hpp]; rfl), hside]
      · have := hCx hk
        refine rotate_of_ne this.1 this.2.2.1 ?_ ?_
        · rw [hqd]; exact fun hb' => this.2.2.2.1 (hroot _ hb')
        · rw [hpp]
          simp only [parent?, ne_eq, some.injEq]
          exact fun he => hne he.symm
  · rw [rotate, if_neg (Ne.symm hpq), if_pos rfl, hq, hpp]
    cases d <;> rfl
  · rw [rotate, if_pos rfl, hp, hqd]
    cases d <;> rfl
  · have := hax hk
    refine rotate_of_ne (fun he => hpa (he ▸ hk)) this.1 ?_ ?_
    · rw [hqd]; exact fun hb' => this.2.1 (hroot _ hb')
    · rw [hpp]; exact fun hC' => (hCx (hparent _ hC')).2.1 hk
  · rw [rotate, if_neg fun he : k = p => hpb (he ▸ hk), if_neg fun he : k = q => hqb (he ▸ hk), hqd]
    split_ifs with h1 h2
    · rfl
    · rw [hpp] at h2
      exact absurd hk (hCx (hparent _ h2)).2.2.2.1
    · rfl
  · refine rotate_of_ne (fun he => hpe (he ▸ hk)) (fun he => hqe (he ▸ hk)) ?_ ?_
    · rw [hqd]; exact fun hb' => hbe (hroot _ hb') hk
    · rw [hpp]; exact fun hC' => (hCx (hparent _ hC')).2.2.2.2 hk

end Rotate

/-! ## Colours -/

section Paint

variable {ι : Type*} [DecidableEq ι] {h : Heap ι}

/-- The heap with another colour at `k`. -/
def paint (h : Heap ι) (k : ι) (b : Bool) : Heap ι :=
  update h k { h k with black := b }

@[simp] theorem child_paint (k x : ι) (b : Bool) (d : Side) :
    (paint h k b x).child d = (h x).child d := by
  by_cases hx : x = k
  · subst hx
    rw [paint, update_self, PNode.child_withBlack]
  · rw [paint, update_of_ne hx]

/-- A new colour for a node of a linked tree. -/
theorem shape_paint {d : Side} {C : TPath ι} {c : Bool} {k : ι} {near far : CTree ι}
    (hs : Shape h none (C.fill (.mk d c k near far)))
    (hnd : (C.fill (.mk d c k near far)).keys.Nodup) (b : Bool) :
    Shape (paint h k b) none (C.fill (.mk d b k near far)) := by
  simp only [shape_fill, shape_mk, CTree.root?_mk] at hs ⊢
  obtain ⟨hC, hk, hn, hf⟩ := hs
  simp only [keys_fill, CTree.keys_mk, nodup_add, nodup_cons,
    disjoint_left, mem_add, mem_cons, not_or] at hnd
  obtain ⟨_, ⟨⟨hkn, hkf⟩, _⟩, hCx⟩ := hnd
  refine ⟨hC.congr fun x hx => ?_, ?_, hn.congr fun x hx => ?_, hf.congr fun x hx => ?_⟩
  · exact update_of_ne (hCx hx).1 _ _
  · rw [paint, update_self, hk]
    rfl
  · exact update_of_ne (fun he : x = k => hkn (he ▸ hx)) _ _
  · exact update_of_ne (fun he : x = k => hkf (he ▸ hx)) _ _

end Paint

/-- Beside a subtree of a search tree, a node without a child on the side of the subtree has another
node between itself and the subtree. -/
theorem Shape.exists_between {ι : Type*} [LinearOrder ι] {h : Heap ι} {Q : TPath ι} {t : CTree ι}
    {d : Side} {x k : ι} (hs : Shape h none (Q.fill t))
    (hsorted : (Q.fill t).toList.Pairwise (· < ·)) (hk : k ∈ t.keys) (hx : x ∈ Q.keys)
    (hlt : d.Lt x k) (hnone : (h x).child d = none) : ∃ z ∈ Q.keys, d.Lt x z ∧ d.Lt z k := by
  induction Q generalizing t with
  | nil => simp [TPath.keys] at hx
  | cons f up ih =>
    have hfk : f.side.Lt f.key k := lt_of_sorted hsorted hk
    simp only [TPath.keys, mem_cons, mem_add] at hx ⊢
    rcases hx with rfl | hx | hx
    · -- the link from a node of the path to the subtree is there
      rw [shape_fill] at hs
      obtain ⟨b, l, k', r, rfl⟩ : ∃ b l k' r, t = .node b l k' r := by
        cases t with
        | leaf => simp [CTree.keys] at hk
        | node b l k' r => exact ⟨b, l, k', r, rfl⟩
      by_cases hd : d = f.side
      · subst hd
        rw [hs.1.1, PNode.child_mk'] at hnone
        simp [CTree.root?] at hnone
      · rw [Side.eq_other_of_ne hd] at hlt
        exact absurd hlt hfk.not_other
    · have hother : (fill up (.mk f.side.other f.black f.key f.sib t)).toList.Pairwise
        (· < ·) := by
        rw [CTree.mk_other]
        exact hsorted
      have hsib : f.side.other.Lt f.key x := lt_of_sorted hother hx
      have hxf : f.side.Lt x f.key := by simpa using hsib.symm
      obtain rfl : d = f.side := by
        by_contra hd
        rw [Side.eq_other_of_ne hd] at hlt
        exact (hxf.trans hfk).not_other hlt
      exact ⟨f.key, .inl rfl, hxf, hfk⟩
    · obtain ⟨z, hz, h1, h2⟩ := ih (t := f.fill t) hs hsorted (by simp [hk]) hx
      exact ⟨z, .inr (.inr hz), h1, h2⟩

/-! ## New and removed nodes -/

section Attach

variable {ι : Type*} [DecidableEq ι] {h : Heap ι}

/-- The heap with the red node `x` as the child of `k` on side `d`. -/
def attach (h : Heap ι) (k : ι) (d : Side) (x : ι) : Heap ι := fun y =>
  if y = x then ⟨false, none, none, some k⟩
  else if y = k then (h k).setChild d (some x)
  else h y

variable {x : ι}

/-- A new node below a missing child. -/
theorem shape_attach {f : Frame ι} {up : TPath ι} (hs : Shape h none (fill (f :: up) .leaf))
    (hnd : (fill (f :: up) .leaf).keys.Nodup) (hx : x ∉ (fill (f :: up) .leaf).keys) :
    Shape (attach h f.key f.side x) none (fill (f :: up) (.node false .leaf x .leaf)) := by
  rw [shape_fill] at hs ⊢
  rw [keys_fill, CTree.keys, add_zero] at hnd hx
  have hfx : f.key ≠ x := by rintro rfl; exact hx (by simp [TPath.keys])
  refine ⟨hs.1.relink hnd ?_ fun k hk hne => ?_, ?_, trivial, trivial⟩
  · rw [attach, if_neg hfx, if_pos rfl]
    rfl
  · rw [attach, if_neg fun he : k = x => hx (he ▸ hk), if_neg hne]
  · rw [attach, if_pos rfl]
    rfl

/-- The heap without the node `x`, whose only child is `y`. The node itself stays as it is. -/
def splice (h : Heap ι) (x : ι) (y : Option ι) : Heap ι := fun k =>
  if y = some k then { h k with parent := (h x).parent }
  else if (h x).parent = some k then (h k).setChild (sideOf h k x) y
  else h k

/-- A node with at most one child is taken out. -/
theorem shape_splice {d : Side} {C : TPath ι} {c : Bool} {t : CTree ι}
    (hs : Shape h none (C.fill (.mk d c x t .leaf)))
    (hnd : (C.fill (.mk d c x t .leaf)).keys.Nodup) :
    Shape (splice h x t.root?) none (C.fill t) := by
  simp only [shape_fill, shape_mk, CTree.root?_mk] at hs ⊢
  obtain ⟨hC, hx, ht, _⟩ := hs
  simp only [keys_fill, CTree.keys_mk, nodup_add, nodup_cons,
    disjoint_left, mem_add, mem_cons, not_or] at hnd
  obtain ⟨hndC, ⟨⟨hxt, _⟩, hndt, _⟩, hCx⟩ := hnd
  have hpar : (h x).parent = C.parent? := by rw [hx, PNode.parent_mk']
  refine ⟨?_, ht.reparent hndt fun k hk => ?_⟩
  · cases C with
    | nil => trivial
    | cons f up =>
      have hfk : f.key ∈ TPath.keys (f :: up) := by simp [TPath.keys]
      refine hC.relink hndC ?_ fun k hk hne => ?_
      · rw [splice, if_neg fun hr => (hCx hfk).2.1 (CTree.mem_keys_of_root? hr),
          if_pos (by rw [hpar]; rfl), hC.sideOf_eq fun hk => (hCx hk).1 rfl]
      · rw [splice, if_neg fun hr => (hCx hk).2.1 (CTree.mem_keys_of_root? hr), if_neg]
        rw [hpar]
        simp only [parent?, some.injEq]
        exact fun he => hne he.symm
  · rw [splice, hpar]
    split_ifs with h1 h2
    · rfl
    · exact absurd hk (hCx (mem_keys_of_parent? h2)).2.1
    · rfl

/-- The heap in which `x` takes the place of `k`. The node `k` itself stays as it is. -/
def rename (h : Heap ι) (k x : ι) : Heap ι := fun z =>
  if z = x then h k
  else if (h k).parent = some z then (h z).setChild (sideOf h z k) (some x)
  else if (h k).left = some z ∨ (h k).right = some z then { h z with parent := some x }
  else h z

theorem shape_rename {C : TPath ι} {b : Bool} {k : ι} {l r : CTree ι}
    (hs : Shape h none (C.fill (.node b l k r))) (hnd : (C.fill (.node b l k r)).keys.Nodup)
    (hx : x ∉ (C.fill (.node b l k r)).keys) :
    Shape (rename h k x) none (C.fill (.node b l x r)) := by
  rw [shape_fill] at hs ⊢
  obtain ⟨hC, hk, hl, hr⟩ := hs
  simp only [keys_fill, CTree.keys, nodup_add, nodup_cons,
    disjoint_left, mem_add, mem_cons, not_or] at hnd hx
  obtain ⟨hndC, ⟨⟨-, -⟩, hndl, hndr, hlr⟩, hCt⟩ := hnd
  obtain ⟨hxC, -, hxl, hxr⟩ := hx
  -- the nodes of a subtree are not on the path
  have hpar : ∀ z, ¬z ∈ C.keys → (h k).parent ≠ some z := fun z hz he => by
    rw [hk] at he
    exact hz (mem_keys_of_parent? he)
  refine ⟨?_, by rw [rename, if_pos rfl, hk], hl.reparent hndl fun z hz => ?_,
    hr.reparent hndr fun z hz => ?_⟩
  · cases C with
    | nil => trivial
    | cons f up =>
      refine hC.relink hndC ?_ fun z hz hne => ?_
      · rw [rename, if_neg (by rintro rfl; exact hxC (by simp [TPath.keys])),
          if_pos (by rw [hk]; rfl), hC.sideOf_eq fun hm => (hCt hm).1 rfl]
        rfl
      · have hchild : ¬((h k).left = some z ∨ (h k).right = some z) := by
          rw [hk]
          rintro (he | he)
          · exact (hCt hz).2.1 (CTree.mem_keys_of_root? he)
          · exact (hCt hz).2.2 (CTree.mem_keys_of_root? he)
        rw [rename, if_neg (fun he : z = x => hxC (he ▸ hz)), if_neg, if_neg hchild]
        rw [hk]
        simp only [parent?, some.injEq]
        exact fun he => hne he.symm
  · rw [rename, if_neg (fun he : z = x => hxl (he ▸ hz)), if_neg (hpar z fun hm => (hCt hm).2.1 hz)]
    have hr' : r.root? ≠ some z := fun he => hlr hz (CTree.mem_keys_of_root? he)
    simp only [hk, hr', or_false]
  · rw [rename, if_neg (fun he : z = x => hxr (he ▸ hz)), if_neg (hpar z fun hm => (hCt hm).2.2 hz)]
    have hl' : l.root? ≠ some z := fun he => hlr (CTree.mem_keys_of_root? he) hz
    simp only [hk, hl', false_or]

end Attach

/-! ## Two nodes change places -/

section Relabel

variable {ι : Type*} [DecidableEq ι] {h : Heap ι}

/-- The heap in which `a` and `b` have changed places, with each link to one of them now a link to
the other. -/
def relabel (h : Heap ι) (a b : ι) : Heap ι := fun k =>
  let n := h (Equiv.swap a b k)
  ⟨n.black, n.left.map (Equiv.swap a b), n.right.map (Equiv.swap a b),
    n.parent.map (Equiv.swap a b)⟩

theorem map_swap (a b : ι) (o : Option ι) : o.map (Equiv.swap a b) =
    if o = some a then some b else if o = some b then some a else o := by
  cases o with
  | none => simp
  | some x =>
    simp only [map_some, Equiv.swap_apply_def]
    grind

variable {a b z : ι}

theorem map_swap_of_ne {o : Option ι} (ha : o ≠ some a) (hb : o ≠ some b) :
    o.map (Equiv.swap a b) = o := by
  rw [map_swap, if_neg ha, if_neg hb]

/-- The node with `a` and `b` exchanged in its links down. -/
def PNode.swapChildren (n : PNode ι) (a b : ι) : PNode ι :=
  { n with left := n.left.map (Equiv.swap a b), right := n.right.map (Equiv.swap a b) }

theorem PNode.swapChildren_comm (n : PNode ι) (a b : ι) :
    n.swapChildren a b = n.swapChildren b a := by
  rw [swapChildren, Equiv.swap_comm, swapChildren]

theorem PNode.swapChildren_of_ne {n : PNode ι} (ha : ∀ d, n.child d ≠ some a)
    (hb : ∀ d, n.child d ≠ some b) : n.swapChildren a b = n := by
  have hl : n.left.map (Equiv.swap a b) = n.left := map_swap_of_ne (ha .left) (hb .left)
  have hr : n.right.map (Equiv.swap a b) = n.right := map_swap_of_ne (ha .right) (hb .right)
  rw [swapChildren, hl, hr]

theorem Linked.swapChildren_parent {S : Multiset ι} (hl : Linked h S) (ha : a ∈ S) (hz : z ∈ S)
    (hpa : (h a).parent = some z) (hpb : (h b).parent ≠ some z) :
    (h z).swapChildren a b = (h z).setChild (sideOf h z a) (some b) := by
  have hb := hl.child_ne hz hpb
  unfold sideOf PNode.swapChildren
  split_ifs with he
  · have hr : (h z).right ≠ some a := (hl.left z hz a he).2.2.2
    rw [map_swap_of_ne hr (hb .right), he, map_some, Equiv.swap_apply_left]
    rfl
  · have hr := (hl.parent a ha z hpa).2.resolve_left he
    rw [map_swap_of_ne he (hb .left), hr, map_some, Equiv.swap_apply_left]
    rfl

theorem Linked.swapChildren_eq {S : Multiset ι} (hl : Linked h S) (ha : a ∈ S) (hb : b ∈ S)
    (hpar : (h a).parent = some z → (h b).parent ≠ some z) (hz : z ∈ S) :
    (h z).swapChildren a b =
      if (h b).parent = some z then (h z).setChild (sideOf h z b) (some a)
      else if (h a).parent = some z then (h z).setChild (sideOf h z a) (some b)
      else h z := by
  split_ifs with h1 h2
  · rw [PNode.swapChildren_comm, hl.swapChildren_parent hb hz h1 fun h2 => hpar h2 h1]
  · exact hl.swapChildren_parent ha hz h2 h1
  · exact PNode.swapChildren_of_ne (hl.child_ne hz h2) (hl.child_ne hz h1)

theorem relabel_left_apply (a b : ι) :
    relabel h a b a =
      { (h b).swapChildren a b with parent := (h b).parent.map (Equiv.swap a b) } := by
  rw [relabel, Equiv.swap_apply_left]
  rfl

theorem relabel_right_apply (a b : ι) :
    relabel h a b b =
      { (h a).swapChildren a b with parent := (h a).parent.map (Equiv.swap a b) } := by
  rw [relabel, Equiv.swap_apply_right]
  rfl

theorem relabel_of_ne (hza : z ≠ a) (hzb : z ≠ b) :
    relabel h a b z =
      { (h z).swapChildren a b with parent := (h z).parent.map (Equiv.swap a b) } := by
  rw [relabel, Equiv.swap_apply_of_ne_of_ne hza hzb]
  rfl

/-- Two nodes of a linked tree change places. -/
theorem shape_relabel {par : Option ι} {t : CTree ι} (hs : Shape h par t) (a b : ι) :
    Shape (relabel h a b) (par.map (Equiv.swap a b)) (t.map (Equiv.swap a b)) := by
  induction t generalizing par with
  | leaf => trivial
  | node c l k r ihl ihr =>
    obtain ⟨h1, h2, h3⟩ := hs
    refine ⟨?_, ihl h2, ihr h3⟩
    rw [relabel, Equiv.swap_apply_self, h1, CTree.root?_map, CTree.root?_map]

end Relabel

end Pptk.Lib
