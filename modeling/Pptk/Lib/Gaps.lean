import Mathlib.Tactic

/-!
# Ascending lists of gaps

A set of points of a linear order that is a finite union of closed intervals,
written as the list of these intervals in ascending order. The intervals are
nonempty and disjoint (`Ascending`), so the list is empty exactly when the set
is (`Ascending.eq_nil_iff`), and a point set can be changed locally: replacing
one gap by smaller ones inside it keeps the list ascending
(`Ascending.replace`).
-/

namespace Pptk.Lib

open List

/-- A closed interval `first … last`. -/
structure Gap (α : Type*) where
  first : α
  last : α
deriving DecidableEq, Repr

namespace Gap

variable {α : Type*} [LinearOrder α]

/-- The point `i` lies in the gap. -/
def Has (g : Gap α) (i : α) : Prop := g.first ≤ i ∧ i ≤ g.last

instance (g : Gap α) (i : α) : Decidable (g.Has i) := inferInstanceAs (Decidable (_ ∧ _))

end Gap

section

variable {α : Type*} [LinearOrder α]

/-- The point `i` lies in one of the gaps. -/
def InGaps (gs : List (Gap α)) (i : α) : Prop := ∃ g ∈ gs, g.Has i

/-- The gaps are nonempty, disjoint and in ascending order. -/
def Ascending (gs : List (Gap α)) : Prop :=
  (∀ g ∈ gs, g.first ≤ g.last) ∧ gs.Pairwise fun g h => g.last < h.first

@[simp] theorem inGaps_nil (i : α) : ¬InGaps ([] : List (Gap α)) i := by
  simp [InGaps]

@[simp] theorem inGaps_cons (g : Gap α) (gs : List (Gap α)) (i : α) :
    InGaps (g :: gs) i ↔ g.Has i ∨ InGaps gs i := by
  simp [InGaps]

@[simp] theorem inGaps_append (gs hs : List (Gap α)) (i : α) :
    InGaps (gs ++ hs) i ↔ InGaps gs i ∨ InGaps hs i := by
  simp only [InGaps, mem_append, or_and_right, exists_or]

@[simp] theorem ascending_nil : Ascending ([] : List (Gap α)) := by
  simp [Ascending]

@[simp] theorem ascending_singleton (g : Gap α) : Ascending [g] ↔ g.first ≤ g.last := by
  simp [Ascending]

theorem ascending_cons (g : Gap α) (gs : List (Gap α)) :
    Ascending (g :: gs) ↔ g.first ≤ g.last ∧ (∀ h ∈ gs, g.last < h.first) ∧ Ascending gs := by
  simp only [Ascending, mem_cons, forall_eq_or_imp, pairwise_cons]
  tauto

theorem ascending_append (gs hs : List (Gap α)) :
    Ascending (gs ++ hs) ↔ Ascending gs ∧ Ascending hs ∧ ∀ g ∈ gs, ∀ h ∈ hs, g.last < h.first := by
  simp only [Ascending, mem_append, pairwise_append, or_imp, forall_and]
  tauto

variable {gs hs : List (Gap α)} {g h : Gap α}

theorem Ascending.sublist (h : Ascending hs) (hs : gs.Sublist hs) : Ascending gs :=
  ⟨fun g hg => h.1 g (hs.subset hg), h.2.sublist hs⟩

theorem Ascending.eq_nil_iff (h : Ascending gs) : gs = [] ↔ ∀ i, ¬InGaps gs i := by
  constructor
  · rintro rfl i; simp
  · intro hno
    cases gs with
    | nil => rfl
    | cons g gs => exact absurd (by simp [Gap.Has, h.1 g (by simp)]) (hno g.first)

theorem Ascending.replace {pre post mid : List (Gap α)} (h : Ascending (pre ++ g :: post))
    (hmid : Ascending mid) (hin : ∀ x ∈ mid, g.first ≤ x.first ∧ x.last ≤ g.last) :
    Ascending (pre ++ (mid ++ post)) := by
  obtain ⟨hpre, hg, hlt⟩ := (ascending_append _ _).mp h
  obtain ⟨_, hgt, hpost⟩ := (ascending_cons _ _).mp hg
  rw [ascending_append, ascending_append]
  refine ⟨hpre, ⟨hmid, hpost, fun x hx y hy => ?_⟩, fun x hx y hy => ?_⟩
  · exact lt_of_le_of_lt (hin x hx).2 (hgt y hy)
  · rcases mem_append.mp hy with hy | hy
    · exact lt_of_lt_of_le (hlt x hx g (by simp)) (hin y hy).1
    · exact hlt x hx y (by simp [hy])

/-- Every gap of `gs` lies inside one of `hs`. -/
def Inside (gs hs : List (Gap α)) : Prop :=
  ∀ g ∈ gs, ∃ h ∈ hs, h.first ≤ g.first ∧ g.last ≤ h.last

theorem inside_refl (gs : List (Gap α)) : Inside gs gs := fun g hg => ⟨g, hg, le_rfl, le_rfl⟩

theorem Inside.skip (hgs : Inside gs hs) : Inside gs (h :: hs) :=
  fun x hx => let ⟨y, hy, hxy⟩ := hgs x hx; ⟨y, by simp [hy], hxy⟩

theorem Inside.cons (hgs : Inside gs (h :: hs)) (h1 : h.first ≤ g.first) (h2 : g.last ≤ h.last) :
    Inside (g :: gs) (h :: hs) := by
  intro x hx
  rcases mem_cons.mp hx with rfl | hx
  · exact ⟨h, by simp, h1, h2⟩
  · exact hgs x hx

/-- Prepending a gap that ends inside the gap in front of all that `gs` came from. -/
theorem Ascending.cons_inside (ha : Ascending (h :: hs)) (hgs : Ascending gs) (hin : Inside gs hs)
    (hne : g.first ≤ g.last) (hle : g.last ≤ h.last) : Ascending (g :: gs) := by
  refine (ascending_cons _ _).mpr ⟨hne, fun x hx => ?_, hgs⟩
  obtain ⟨y, hy, hxy, _⟩ := hin x hx
  exact lt_of_le_of_lt hle (lt_of_lt_of_le (((ascending_cons _ _).mp ha).2.1 y hy) hxy)

/-- In an ascending list every gap behind `g` starts behind the end of `g`. -/
theorem Ascending.lt_of_mem_tail (ha : Ascending (g :: gs)) (hh : h ∈ gs) : g.last < h.first :=
  ((ascending_cons _ _).mp ha).2.1 h hh

theorem Ascending.pairwise_first (ha : Ascending gs) : (gs.map Gap.first).Pairwise (· < ·) := by
  rw [pairwise_map]
  exact ha.2.imp_of_mem fun hg _ hlt => lt_of_le_of_lt (ha.1 _ hg) hlt

theorem Ascending.nodup_first (ha : Ascending gs) : (gs.map Gap.first).Nodup :=
  ha.pairwise_first.imp fun h => h.ne

theorem Ascending.beside {pre post : List (Gap α)} (ha : Ascending (pre ++ g :: post))
    (hh : h ∈ pre ++ post) : h.first ≤ h.last ∧ (h.last < g.first ∨ g.last < h.first) := by
  obtain ⟨hpre, hcons, hlt⟩ := (ascending_append _ _).mp ha
  obtain ⟨-, hgt, hpost⟩ := (ascending_cons _ _).mp hcons
  rcases mem_append.mp hh with hh | hh
  · exact ⟨hpre.1 h hh, .inl (hlt h hh g (by simp))⟩
  · exact ⟨hpost.1 h hh, .inr (hgt h hh)⟩

/-- A point lies in one gap only. -/
theorem Ascending.eq_of_has (ha : Ascending gs) (hg : g ∈ gs) (hh : h ∈ gs) {i : α} (hgi : g.Has i)
    (hhi : h.Has i) : g = h := by
  by_contra hne
  obtain ⟨pre, post, rfl⟩ := append_of_mem hg
  have hmem : h ∈ pre ++ post := by
    simp only [mem_append, mem_cons] at hh ⊢
    exact hh.imp_right fun h => h.resolve_left fun he => hne he.symm
  rcases (ha.beside hmem).2 with hlt | hgt
  · exact absurd hlt (not_lt.mpr (hgi.1.trans hhi.2))
  · exact absurd hgt (not_lt.mpr (hhi.1.trans hgi.2))

theorem Ascending.eq_of_first (ha : Ascending gs) (hg : g ∈ gs) (hh : h ∈ gs)
    (he : g.first = h.first) : g = h :=
  ha.eq_of_has hg hh ⟨le_rfl, ha.1 g hg⟩ ⟨he.ge, he ▸ ha.1 h hh⟩

theorem Ascending.lt_of_inGaps_tail {i : α} (ha : Ascending (g :: gs)) (hi : InGaps gs i) :
    g.last < i := by
  obtain ⟨h, hh, h1, _⟩ := hi
  exact lt_of_lt_of_le (ha.lt_of_mem_tail hh) h1

end

end Pptk.Lib
