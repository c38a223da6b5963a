import Pptk.Lib.CTree

/-!
# Height-balanced trees with stored balances

A balance is kept for every node of a tree: the height of its right subtree minus
that of its left one. `CTree.Avl B` says that the balances `B` are right and none is
outside `-1 … 1`. A path has the same property for a hole of a given height, so a
tree whose subtree has just grown or shrunk by one is a path that is right for the
old height around a subtree that is right by itself.

Main results: `CTree.Avl.rotate` and `CTree.Avl.rotateDouble`.
-/

namespace Pptk.Lib

open Function Multiset CTree

variable {ι : Type*}

/-- What one more level on side `d` adds to a balance. -/
def Side.weight : Side → ℤ
  | .left => -1
  | .right => 1

theorem Side.weight_eq (d : Side) : d.weight = 1 ∨ d.weight = -1 := by cases d <;> simp [weight]

namespace CTree

/-- The number of nodes on the longest way down. -/
def height : CTree ι → ℕ
  | .leaf => 0
  | .node _ l _ r => 1 + max l.height r.height

/-- Every balance is the difference of the heights, and at most one. -/
def Avl (B : ι → ℤ) : CTree ι → Prop
  | .leaf => True
  | .node _ l k r => l.Avl B ∧ r.Avl B ∧ B k = r.height - l.height ∧ -1 ≤ B k ∧ B k ≤ 1

variable {B B' : ι → ℤ} {d : Side} {c : Bool} {k : ι} {near far : CTree ι}

@[simp] theorem height_leaf : (leaf : CTree ι).height = 0 := rfl

@[simp] theorem height_mk : (mk d c k near far).height = 1 + max near.height far.height := by
  cases d with
  | left => rfl
  | right => exact congrArg (1 + ·) (max_comm ..)

theorem avl_mk : (mk d c k near far).Avl B ↔ near.Avl B ∧ far.Avl B ∧
    d.weight * B k = near.height - far.height ∧ -1 ≤ B k ∧ B k ≤ 1 := by
  cases d with
  | left =>
    refine and_congr_right fun _ => and_congr_right fun _ => and_congr_left fun _ => ?_
    rw [Side.weight]
    omega
  | right =>
    refine ⟨fun ⟨h1, h2, h3⟩ => ⟨h2, h1, ?_⟩, fun ⟨h1, h2, h3⟩ => ⟨h2, h1, ?_⟩⟩
    · rwa [Side.weight, one_mul]
    · rwa [Side.weight, one_mul] at h3

theorem Avl.congr {t : CTree ι} (h : t.Avl B) (hB : ∀ k ∈ t.keys, B' k = B k) : t.Avl B' := by
  induction t with
  | leaf => trivial
  | node c l k r ihl ihr =>
    obtain ⟨hl, hr, hk⟩ := h
    refine ⟨ihl hl fun x hx => hB x (by simp [keys, hx]), ihr hr fun x hx =>
      hB x (by simp [keys, hx]), ?_⟩
    rwa [hB k (by simp [keys])]

theorem Avl.update [DecidableEq ι] {t : CTree ι} (h : t.Avl B) {x : ι} (hx : x ∉ t.keys) (b : ℤ) :
    t.Avl (update B x b) :=
  h.congr fun k hk => update_of_ne (fun he : k = x => hx (he ▸ hk)) _ _

@[simp] theorem height_map {κ : Type*} (g : ι → κ) (t : CTree ι) : (t.map g).height = t.height := by
  induction t with
  | leaf => rfl
  | node c l k r ihl ihr => rw [map, height, height, ihl, ihr]

theorem avl_map {κ : Type*} {B : κ → ℤ} (g : ι → κ) (t : CTree ι) :
    (t.map g).Avl B ↔ t.Avl fun k => B (g k) := by
  induction t with
  | leaf => rfl
  | node c l k r ihl ihr => rw [map, Avl, Avl, ihl, ihr, height_map, height_map]

/-- The single rotation: `x` is too low on side `e`, and its other child `z` is not lower on that
side. -/
theorem Avl.rotate {e : Side} {c c' : Bool} {x z : ι} {a b f : CTree ι} (ha : a.Avl B)
    (hz : (mk e c' z b f).Avl B) (hh : (mk e c' z b f).height = a.height + 2)
    (hside : e.weight * B z ≤ 0) (hx : B' x = if B z = 0 then -e.weight else 0)
    (hz' : B' z = if B z = 0 then e.weight else 0)
    (hB : ∀ k, k ∈ a.keys ∨ k ∈ b.keys ∨ k ∈ f.keys → B' k = B k) :
    (mk e c' z (mk e c x a b) f).Avl B' ∧
      (mk e c' z (mk e c x a b) f).height = a.height + (if B z = 0 then 3 else 2) := by
  obtain ⟨hb, hf, hbal, h1, h2⟩ := avl_mk.mp hz
  rw [height_mk] at hh
  have hkeep : a.Avl B' ∧ b.Avl B' ∧ f.Avl B' :=
    ⟨ha.congr fun k hk => hB k (.inl hk), hb.congr fun k hk => hB k (.inr (.inl hk)),
      hf.congr fun k hk => hB k (.inr (.inr hk))⟩
  simp only [avl_mk, height_mk, hkeep, true_and, hx, hz']
  rcases e.weight_eq with he | he <;> rw [he] at hbal hside ⊢ <;> split_ifs <;> omega

/-- The double rotation: `x` is too low on side `e`, and its other child `z` is lower on the other
side, where `y` is. -/
theorem Avl.rotateDouble {e : Side} {c c' c'' : Bool} {x y z : ι} {a b b' f : CTree ι}
    (ha : a.Avl B) (hz : (mk e c' z (mk e c'' y b b') f).Avl B)
    (hh : (mk e c' z (mk e c'' y b b') f).height = a.height + 2) (hside : 0 < e.weight * B z)
    (hx : B' x = if e.weight * B y < 0 then e.weight else 0)
    (hz' : B' z = if e.weight * B y > 0 then -e.weight else 0) (hy : B' y = 0)
    (hB : ∀ k, k ∈ a.keys ∨ k ∈ b.keys ∨ k ∈ b'.keys ∨ k ∈ f.keys → B' k = B k) :
    (mk e c'' y (mk e c x a b) (mk e c' z b' f)).Avl B' ∧
      (mk e c'' y (mk e c x a b) (mk e c' z b' f)).height = a.height + 2 := by
  obtain ⟨hy0, hf, hbal, h1, h2⟩ := avl_mk.mp hz
  obtain ⟨hb, hb', hbaly, h3, h4⟩ := avl_mk.mp hy0
  rw [height_mk, height_mk] at hh
  rw [height_mk] at hbal
  have hkeep : a.Avl B' ∧ b.Avl B' ∧ b'.Avl B' ∧ f.Avl B' :=
    ⟨ha.congr fun k hk => hB k (.inl hk), hb.congr fun k hk => hB k (.inr (.inl hk)),
      hb'.congr fun k hk => hB k (.inr (.inr (.inl hk))),
      hf.congr fun k hk => hB k (.inr (.inr (.inr hk)))⟩
  simp only [avl_mk, height_mk, hkeep, true_and, hx, hy, hz']
  rcases e.weight_eq with he | he <;> rw [he] at hbal hbaly hside ⊢ <;> split_ifs <;> omega

end CTree

namespace TPath

variable {B B' : ι → ℤ}

/-- The balances on the path are right if the subtree has height `n`. -/
def Avl (B : ι → ℤ) : TPath ι → ℕ → Prop
  | [], _ => True
  | f :: up, n => (f.sib.Avl B ∧ f.side.weight * B f.key = n - f.sib.height ∧ -1 ≤ B f.key ∧
      B f.key ≤ 1) ∧ Avl B up (1 + max n f.sib.height)

/-- A tree is balanced if the subtree and the path around it are. -/
theorem avl_fill (p : TPath ι) (t : CTree ι) : (p.fill t).Avl B ↔ t.Avl B ∧ p.Avl B t.height := by
  induction p generalizing t with
  | nil => simp [Avl]
  | cons f up ih =>
    rw [fill_cons, ih, Frame.fill, avl_mk, height_mk, Avl]
    tauto

theorem Avl.congr {p : TPath ι} {n : ℕ} (h : p.Avl B n) (hB : ∀ k ∈ p.keys, B' k = B k) :
    p.Avl B' n := by
  induction p generalizing n with
  | nil => trivial
  | cons f up ih =>
    obtain ⟨⟨hs, hk⟩, hup⟩ := h
    refine ⟨⟨hs.congr fun x hx => hB x (by simp [keys, hx]), ?_⟩,
      ih hup fun x hx => hB x (by simp [keys, hx])⟩
    rwa [hB f.key (by simp [keys])]

theorem Avl.update [DecidableEq ι] {p : TPath ι} {n : ℕ} (h : p.Avl B n) {x : ι} (hx : x ∉ p.keys)
    (b : ℤ) : p.Avl (update B x b) n :=
  h.congr fun k hk => update_of_ne (fun he : k = x => hx (he ▸ hk)) _ _

theorem avl_fill_update [DecidableEq ι] {f : Frame ι} {V : CTree ι} (hV : V.Avl B)
    (hs : f.sib.Avl B) (hVk : f.key ∉ V.keys) (hsk : f.key ∉ f.sib.keys) {b : ℤ}
    (hb : f.side.weight * b = V.height - f.sib.height) (h1 : -1 ≤ b) (h2 : b ≤ 1) :
    (f.fill V).Avl (update B f.key b) := by
  refine avl_mk.mpr ⟨hV.update hVk b, hs.update hsk b, ?_⟩
  rw [update_self]
  exact ⟨hb, h1, h2⟩

/-- The path `F` is what a rotation makes of the frame `f`, whose other subtree has the root `z`:
the balances `B` become `B'`, and they are right around a subtree that is too low by two. -/
structure Rotated (B B' : ι → ℤ) (f : Frame ι) (z : ι) (F : TPath ι) : Prop where
  before : before F = TPath.before [f]
  after : after F = TPath.after [f]
  keys : keys F = TPath.keys [f]
  bal : ∀ k ∉ TPath.keys F, B' k = B k
  avl : ∀ {V : CTree ι}, V.Avl B → (∀ k ∈ V.keys, k ∉ TPath.keys F) → f.sib.height = V.height + 2 →
    (F.fill V).Avl B' ∧ (F.fill V).height = V.height + if B z = 0 then 3 else 2

theorem Rotated.before_append {f : Frame ι} {z : ι} {F : TPath ι} (h : Rotated B B' f z F)
    (p q : TPath ι) : TPath.before (p ++ F ++ q) = TPath.before (p ++ f :: q) := by
  simp [TPath.before_append, h.before, TPath.before]

theorem Rotated.after_append {f : Frame ι} {z : ι} {F : TPath ι} (h : Rotated B B' f z F)
    (p q : TPath ι) : TPath.after (p ++ F ++ q) = TPath.after (p ++ f :: q) := by
  simp [TPath.after_append, h.after, TPath.after]

variable {e : Side} {c c' c'' : Bool} {x y z : ι} {b b' u : CTree ι}

theorem Rotated.single (hz : (CTree.mk e c' z b u).Avl B) (hside : e.weight * B z ≤ 0)
    (hnd : (TPath.keys [⟨e, c, x, .mk e c' z b u⟩]).Nodup)
    (hx : B' x = if B z = 0 then -e.weight else 0) (hz' : B' z = if B z = 0 then e.weight else 0)
    (hB : ∀ k, k ≠ x → k ≠ z → B' k = B k) :
    Rotated B B' ⟨e, c, x, .mk e c' z b u⟩ z [⟨e, c, x, b⟩, ⟨e, c', z, u⟩] := by
  have hkeys : TPath.keys [⟨e, c, x, b⟩, ⟨e, c', z, u⟩] =
    TPath.keys [⟨e, c, x, .mk e c' z b u⟩] := by
    simp only [TPath.keys, keys_mk, add_cons, add_zero]
  refine ⟨?_, ?_, hkeys, fun k hk => ?_, fun hV hdis hh => ?_⟩
  · cases e <;> simp [TPath.before, Side.pick, CTree.mk, CTree.toList]
  · cases e <;> simp [TPath.after, Side.pick, CTree.mk, CTree.toList]
  · simp only [TPath.keys, mem_cons, mem_add, not_or] at hk
    exact hB k hk.1 hk.2.2.1
  · rw [hkeys] at hdis
    simp only [TPath.keys, keys_mk, add_zero, nodup_cons, mem_cons, mem_add, not_or] at hnd hdis
    refine CTree.Avl.rotate hV hz hh hside hx hz' fun k hk => hB k ?_ ?_ <;> rintro rfl <;> grind

theorem Rotated.double (hz : (CTree.mk e c' z (.mk e c'' y b b') u).Avl B)
    (hside : 0 < e.weight * B z)
    (hnd : (TPath.keys [⟨e, c, x, .mk e c' z (.mk e c'' y b b') u⟩]).Nodup)
    (hx : B' x = if e.weight * B y < 0 then e.weight else 0)
    (hz' : B' z = if e.weight * B y > 0 then -e.weight else 0) (hy : B' y = 0)
    (hB : ∀ k, k ≠ x → k ≠ y → k ≠ z → B' k = B k) :
    Rotated B B' ⟨e, c, x, .mk e c' z (.mk e c'' y b b') u⟩ z
      [⟨e, c, x, b⟩, ⟨e, c'', y, .mk e c' z b' u⟩] := by
  have hkeys : TPath.keys [⟨e, c, x, b⟩, ⟨e, c'', y, .mk e c' z b' u⟩] =
      TPath.keys [⟨e, c, x, .mk e c' z (.mk e c'' y b b') u⟩] := by
    simp only [TPath.keys, keys_mk, add_cons, cons_add, add_zero, add_assoc]
    rw [cons_swap z y]
  refine ⟨?_, ?_, hkeys, fun k hk => ?_, fun hV hdis hh => ?_⟩
  · cases e <;> simp [TPath.before, Side.pick, CTree.mk, CTree.toList]
  · cases e <;> simp [TPath.after, Side.pick, CTree.mk, CTree.toList]
  · simp only [TPath.keys, CTree.keys_mk, mem_cons, mem_add, not_or] at hk
    exact hB k hk.1 hk.2.2.1 hk.2.2.2.1.1
  · rw [hkeys] at hdis
    simp only [TPath.keys, keys_mk, add_zero, cons_add, nodup_cons,
      mem_cons, mem_add, not_or] at hnd hdis
    have hne : B z ≠ 0 := by
      rintro h0
      rw [h0, mul_zero] at hside
      exact lt_irrefl _ hside
    rw [if_neg hne]
    refine CTree.Avl.rotateDouble hV hz hh hside hx hz' hy fun k hk => hB k ?_ ?_ ?_ <;>
      rintro rfl <;> grind

end TPath

end Pptk.Lib
