import Pptk.Lib.CTree

/-!
# Search trees by a comparison function

What a search tree over nodes with a three-way comparison function is for, without
saying how it is balanced: after insertions and deletions of nodes, its in-order
sequence is the list of the nodes in it, in the order of their insertion, sorted
by a stable sort.

Main results: `TotalPreorderCmp`, `StablySorted`, `CTree.place` and `TreeOp.run_inv`.
-/

namespace Pptk.Lib

open TPath CTree

variable {ι : Type*}

/-! ## Comparison functions -/

/-- The sign of `cmp a b` says how `a` and `b` compare in a total preorder. -/
structure TotalPreorderCmp (cmp : ι → ι → ℤ) : Prop where
  lt_iff : ∀ a b, cmp a b < 0 ↔ 0 < cmp b a
  trans : ∀ {a b c}, cmp a b ≤ 0 → cmp b c ≤ 0 → cmp a c ≤ 0

namespace TotalPreorderCmp

variable {cmp : ι → ι → ℤ} {a b c : ι}

theorem not_lt (h : TotalPreorderCmp cmp) : ¬cmp a b < 0 ↔ cmp b a ≤ 0 := by
  rw [h.lt_iff]
  omega

theorem lt_of_lt_of_le (h : TotalPreorderCmp cmp) (hab : cmp a b < 0) (hbc : cmp b c ≤ 0) :
    cmp a c < 0 := by
  by_contra hac
  have hca := h.not_lt.mp hac
  have hba := h.trans hbc hca
  exact h.not_lt.mpr hba hab

end TotalPreorderCmp

/-! ## The in-order sequence -/

/-- `xs` is `live` sorted by `cmp`, with equal nodes in the order they have in `live`. -/
structure StablySorted (cmp : ι → ι → ℤ) (live xs : List ι) : Prop where
  sorted : xs.Pairwise fun a b => cmp a b ≤ 0
  perm : xs.Perm live
  stable : ∀ a, xs.filter (fun b => cmp a b = 0) = live.filter fun b => cmp a b = 0

namespace StablySorted

variable {cmp : ι → ι → ℤ} {live xs pre post : List ι} {k : ι}

theorem nil : StablySorted cmp [] ([] : List ι) := ⟨.nil, .refl _, fun _ => rfl⟩

/-- A node goes behind the nodes that are not greater, hence behind its equals. -/
theorem insert (hcmp : TotalPreorderCmp cmp) (h : StablySorted cmp live (pre ++ post))
    (hpre : ∀ x ∈ pre, ¬cmp k x < 0) (hpost : ∀ x ∈ post, cmp k x < 0) :
    StablySorted cmp (live ++ [k]) (pre ++ k :: post) := by
  obtain ⟨hsort, hperm, hstable⟩ := h
  rw [List.pairwise_append] at hsort
  obtain ⟨hs1, hs2, hs12⟩ := hsort
  refine ⟨?_, ?_, fun a => ?_⟩
  · rw [List.pairwise_append]
    refine ⟨hs1, List.pairwise_cons.mpr ⟨fun x hx => (hpost x hx).le, hs2⟩, fun x hx y hy => ?_⟩
    rcases List.mem_cons.mp hy with rfl | hy
    · exact hcmp.not_lt.mp (hpre x hx)
    · exact hs12 x hx y hy
  · exact List.perm_middle.trans ((hperm.cons k).trans (List.perm_append_singleton k live).symm)
  · have hlive := hstable a
    rw [List.filter_append] at hlive
    rw [List.filter_append, List.filter_append, ← hlive, List.filter_cons]
    split_ifs with hk
    · -- no node behind the new one is equal to it
      have hnone : post.filter (fun b => cmp a b = 0) = [] := by
        refine List.filter_eq_nil_iff.mpr fun x hx => ?_
        have hak : cmp a k ≤ 0 := (of_decide_eq_true hk).le
        have hlt : cmp k x < 0 := hpost x hx
        have hka : cmp k a ≤ 0 := hcmp.not_lt.mp (by rw [of_decide_eq_true hk]; omega)
        have hxa := (hcmp.lt_iff k x).mp hlt
        intro hx0
        have hax : cmp x a ≤ 0 := hcmp.not_lt.mp (by rw [of_decide_eq_true hx0]; omega)
        have := hcmp.trans hax hak
        omega
      rw [hnone]
      simp [hk]
    · simp [hk]

theorem erase [DecidableEq ι] (h : StablySorted cmp live xs) (hnd : live.Nodup) (k : ι) :
    StablySorted cmp (live.erase k) (xs.erase k) := by
  refine ⟨h.sorted.sublist List.erase_sublist, h.perm.erase k, fun a => ?_⟩
  rw [hnd.erase_eq_filter, (h.perm.nodup_iff.mpr hnd).erase_eq_filter, List.filter_comm,
    h.stable, List.filter_comm]

end StablySorted

/-! ## The place of a new node -/

/-- The path to the missing subtree that is reached from `t`, below the path `p`, by going left at
the nodes for which `lt` holds and right at the others. -/
def CTree.gap (lt : ι → Bool) : CTree ι → TPath ι → TPath ι
  | .leaf, p => p
  | .node b l k r, p => if lt k then gap lt l (⟨.left, b, k, r⟩ :: p)
    else gap lt r (⟨.right, b, k, l⟩ :: p)

theorem CTree.fill_gap (lt : ι → Bool) (t : CTree ι) (p : TPath ι) :
    (t.gap lt p).fill .leaf = p.fill t := by
  induction t generalizing p with
  | leaf => rfl
  | node b l k r ihl ihr =>
    rw [gap]
    split_ifs
    · exact ihl _
    · exact ihr _

/-- In a tree whose nodes with `lt` are the last ones, the path separates them from the others. -/
theorem CTree.gap_separates {lt : ι → Bool} {t : CTree ι}
    (h : t.toList.Pairwise fun a b => lt a = true → lt b = true) (p : TPath ι) :
    ∃ pre post, t.toList = pre ++ post ∧ (t.gap lt p).before = p.before ++ pre ∧
      (t.gap lt p).after = post ++ p.after ∧ (∀ x ∈ pre, lt x = false) ∧
      ∀ x ∈ post, lt x = true := by
  induction t generalizing p with
  | leaf => exact ⟨[], [], rfl, by simp [gap], by simp [gap], by simp, by simp⟩
  | node b l k r ihl ihr =>
    rw [toList, List.pairwise_append, List.pairwise_cons] at h
    obtain ⟨hl, ⟨hkr, hr⟩, hlr⟩ := h
    rw [gap]
    split_ifs with hk
    · obtain ⟨pre, post, hlist, hb, ha, hpre, hpost⟩ := ihl hl (⟨.left, b, k, r⟩ :: p)
      refine ⟨pre, post ++ k :: r.toList, by simp [toList, hlist], ?_, ?_, hpre, fun x hx => ?_⟩
      · rw [hb]
        simp [before, Side.pick]
      · rw [ha]
        simp [after, Side.pick]
      · rcases List.mem_append.mp hx with hx | hx
        · exact hpost x hx
        · rcases List.mem_cons.mp hx with rfl | hx
          · exact hk
          · exact hkr x hx hk
    · obtain ⟨pre, post, hlist, hb, ha, hpre, hpost⟩ := ihr hr (⟨.right, b, k, l⟩ :: p)
      refine ⟨l.toList ++ k :: pre, post, by simp [toList, hlist], ?_, ?_, fun x hx => ?_, hpost⟩
      · rw [hb]
        simp [before, Side.pick]
      · rw [ha]
        simp [after, Side.pick]
      · rcases List.mem_append.mp hx with hx | hx
        · exact Bool.eq_false_iff.mpr fun hx' => hk (hlr x hx k (by simp) hx')
        · rcases List.mem_cons.mp hx with rfl | hx
          · exact Bool.eq_false_iff.mpr hk
          · exact hpre x hx

/-- The place of a new node `k`: behind the nodes that are not greater. -/
def CTree.place (cmp : ι → ι → ℤ) (k : ι) (t : CTree ι) : TPath ι := t.gap (fun y => cmp k y < 0) []

theorem CTree.fill_place (cmp : ι → ι → ℤ) (k : ι) (t : CTree ι) : (t.place cmp k).fill .leaf = t :=
  t.fill_gap _ []

theorem StablySorted.insert_place {cmp : ι → ι → ℤ} (hcmp : TotalPreorderCmp cmp) {live : List ι}
    {t : CTree ι} (h : StablySorted cmp live t.toList) (k : ι) :
    StablySorted cmp (live ++ [k]) ((t.place cmp k).before ++ k :: (t.place cmp k).after) := by
  have hmono : t.toList.Pairwise fun a b => decide (cmp k a < 0) = true →
    decide (cmp k b < 0) = true :=
    h.sorted.imp fun hab => by simpa using fun hlt => hcmp.lt_of_lt_of_le hlt hab
  obtain ⟨pre, post, hsplit, hb, ha, hpre, hpost⟩ := gap_separates hmono []
  rw [hsplit] at h
  rw [place, hb, ha, before, after, List.nil_append, List.append_nil]
  exact h.insert hcmp (fun x hx => of_decide_eq_false (hpre x hx)) fun x hx =>
    of_decide_eq_true (hpost x hx)

/-! ## Sequences of operations -/

/-- An operation on a search tree. -/
inductive TreeOp (ι : Type*)
  | insert (k : ι)
  | delete (k : ι)

namespace TreeOp

variable [DecidableEq ι]

/-- The nodes in the tree after an operation, in the order of their insertion. -/
def live (nodes : List ι) : TreeOp ι → List ι
  | insert k => nodes ++ [k]
  | delete k => nodes.erase k

/-- A node that is inserted is not in the tree yet, one that is deleted is. -/
def Allowed (nodes : List ι) : TreeOp ι → Prop
  | insert k => k ∉ nodes
  | delete k => k ∈ nodes

/-- The same for a sequence of operations. -/
def AllAllowed : List ι → List (TreeOp ι) → Prop
  | _, [] => True
  | nodes, op :: ops => op.Allowed nodes ∧ AllAllowed (op.live nodes) ops

theorem live_nodup {nodes : List ι} {op : TreeOp ι} (hnd : nodes.Nodup) (h : op.Allowed nodes) :
    (op.live nodes).Nodup := by
  cases op with
  | insert k => exact (List.nodup_append_comm.mp (List.nodup_cons.mpr ⟨h, hnd⟩))
  | delete k => exact hnd.sublist List.erase_sublist

theorem length_live_le (nodes : List ι) (op : TreeOp ι) :
    (op.live nodes).length ≤ nodes.length + 1 := by
  cases op with
  | insert k => simp [live]
  | delete k => exact (List.erase_sublist.length_le).trans (Nat.le_succ _)

/-- An invariant that every allowed operation on at most `n` nodes keeps. -/
theorem run_inv {σ : Type*} {step : σ → TreeOp ι → Option σ} {P : List ι → σ → Prop} {n : ℕ}
    (hstep : ∀ {nodes s op}, nodes.Nodup → nodes.length < n → op.Allowed nodes → P nodes s →
      ∃ s', step s op = some s' ∧ P (op.live nodes) s') {ops : List (TreeOp ι)} {nodes : List ι}
    {s : σ} (hnd : nodes.Nodup) (hops : AllAllowed nodes ops) (hn : nodes.length + ops.length ≤ n)
    (h : P nodes s) : ∃ s', ops.foldlM step s = some s' ∧ P (ops.foldl live nodes) s' := by
  induction ops generalizing nodes s with
  | nil => exact ⟨s, rfl, h⟩
  | cons op ops ih =>
    obtain ⟨hop, hops⟩ := hops
    rw [List.length_cons] at hn
    obtain ⟨s1, hs1, h1⟩ := hstep hnd (by omega) hop h
    have hlen := length_live_le nodes op
    obtain ⟨s', hrun, h'⟩ := ih (live_nodup hnd hop) hops (by omega) h1
    exact ⟨s', by rw [List.foldlM_cons, hs1]; exact hrun, h'⟩

end TreeOp

end Pptk.Lib
