import Pptk.Lib.Order

/-!
# Implementations of search trees

What a user of a search tree relies on, whatever the tree looks like inside: it holds a list of
nodes in order, and its operations are the ones on that list. The comparison function is an argument
of the insertion and not part of the tree, so nodes may change their keys while they are in it, as
long as the others are in order when the next one is inserted.

Main results: `SearchTree` and `SearchTree.holds_reinsert`.
-/

namespace Pptk.Lib

open List

/-- The list is in order. -/
def SortedBy {ι : Type*} (cmp : ι → ι → ℤ) (xs : List ι) :
    Prop := xs.Pairwise fun a b => cmp a b ≤ 0

/-- A search tree over nodes `ι`. The loops of its operations are bounded by an argument. `init`
makes a tree empty that may have been anything before. -/
structure SearchTree (ι : Type*) [DecidableEq ι] where
  Tree : Type*
  init : Tree → Tree
  insert : (ι → ι → ℤ) → ℕ → Tree → ι → Option Tree
  delete : ℕ → Tree → ι → Option Tree
  leftmost : ℕ → Tree → Option (Option ι)
  Holds : Tree → List ι → Prop
  nodup : ∀ {t xs}, Holds t xs → xs.Nodup
  holds_init : ∀ t, Holds (init t) []
  holds_insert : ∀ {cmp t xs k fuel}, TotalPreorderCmp cmp → Holds t xs → SortedBy cmp xs → k ∉ xs →
    2 * xs.length < fuel →
    ∃ t' ys, insert cmp fuel t k = some t' ∧ Holds t' ys ∧ SortedBy cmp ys ∧ ys.Perm (k :: xs)
  holds_delete : ∀ {t xs k fuel}, Holds t xs → k ∈ xs → xs.length ≤ fuel →
    ∃ t', delete fuel t k = some t' ∧ Holds t' (xs.erase k)
  holds_leftmost : ∀ {t xs fuel}, Holds t xs → xs.length ≤ fuel → leftmost fuel t = some xs.head?

theorem sortedBy_place {ι : Type*} {cmp : ι → ι → ℤ} (hcmp : TotalPreorderCmp cmp) {t : CTree ι}
    (h : SortedBy cmp t.toList) (k : ι) :
    SortedBy cmp ((t.place cmp k).before ++ k :: (t.place cmp k).after) ∧
      ((t.place cmp k).before ++ k :: (t.place cmp k).after).Perm (k :: t.toList) := by
  have hstable : StablySorted cmp t.toList t.toList := ⟨h, .refl _, fun _ => rfl⟩
  have hplace := hstable.insert_place hcmp k
  exact ⟨hplace.sorted, hplace.perm.trans (perm_append_singleton k t.toList)⟩

theorem SortedBy.head_le {ι : Type*} {cmp : ι → ι → ℤ} (hcmp : TotalPreorderCmp cmp) {x : ι}
    {xs : List ι} (h : SortedBy cmp (x :: xs)) : ∀ y ∈ x :: xs, cmp x y ≤ 0 := by
  intro y hy
  rcases mem_cons.mp hy with rfl | hy
  · exact hcmp.not_lt.mp fun hlt => by
      have := (hcmp.lt_iff y y).mp hlt
      omega
  · exact (pairwise_cons.mp h).1 y hy

/-- A comparison function that agrees with the old one on the nodes of the list. -/
theorem SortedBy.congr {ι : Type*} {cmp cmp' : ι → ι → ℤ} {xs : List ι} (h : SortedBy cmp xs)
    (heq : ∀ a ∈ xs, ∀ b ∈ xs, cmp' a b = cmp a b) : SortedBy cmp' xs := by
  refine List.Pairwise.imp_of_mem (fun ha hb hab => ?_) h
  rw [heq _ ha _ hb]
  exact hab

/-! ## Operations on the whole tree -/

namespace SearchTree

variable {ι : Type*} [DecidableEq ι] (S : SearchTree ι)

/-- A node whose key has changed is taken out and inserted again. The comparison functions agree on
the other nodes. -/
theorem holds_reinsert {cmp cmp' : ι → ι → ℤ} {t : S.Tree} {xs : List ι} {k : ι} {fuel : ℕ}
    (hcmp' : TotalPreorderCmp cmp') (h : S.Holds t xs) (hsorted : SortedBy cmp xs) (hk : k ∈ xs)
    (heq : ∀ a, a ≠ k → ∀ b, b ≠ k → cmp' a b = cmp a b) (hfuel : 2 * xs.length < fuel) :
    ∃ t1 t' ys, S.delete fuel t k = some t1 ∧ S.insert cmp' fuel t1 k = some t' ∧ S.Holds t' ys ∧
      SortedBy cmp' ys ∧
      ys.Perm xs := by
  have hnodup := S.nodup h
  obtain ⟨t1, hdelete, h1⟩ := S.holds_delete h hk (show xs.length ≤ fuel by omega)
  have hne : ∀ a ∈ xs.erase k, a ≠ k := fun a ha => (hnodup.mem_erase_iff.mp ha).1
  have hsorted1 : SortedBy cmp' (xs.erase k) :=
    SortedBy.congr (hsorted.sublist erase_sublist) fun a ha b hb =>
      heq a (hne a ha) b (hne b hb)
  have hlen : (xs.erase k).length ≤ xs.length := erase_sublist.length_le
  obtain ⟨t', ys, hinsert, h', hsorted', hperm⟩ :=
    S.holds_insert hcmp' h1 hsorted1 hnodup.not_mem_erase
    (show 2 * (xs.erase k).length < fuel by omega)
  exact ⟨t1, t', ys, hdelete, hinsert, h', hsorted', hperm.trans (perm_cons_erase hk).symm⟩

end SearchTree

end Pptk.Lib
