import Mathlib.Data.Fintype.Pigeonhole
import Mathlib.Data.Fintype.Prod
import Mathlib.Logic.Relation
import Mathlib.Data.Nat.Notation

/-!
# Loops

A loop is given by its body, which either goes on with a new state or returns a result.
`loop` runs it for a bounded number of iterations; `Returns` says that some bound is enough.

Main results: `exists_returns`, `not_returns` and `exists_repeat`.
-/

namespace Pptk.Lib

variable {σ ρ : Type*}

/-- At most `fuel` iterations of a loop. -/
def loop (body : σ → σ ⊕ ρ) : ℕ → σ → Option ρ
  | 0, _ => none
  | fuel + 1, s =>
    match body s with
    | .inl s' => loop body fuel s'
    | .inr r => some r

/-- The loop returns `r` when it is entered in the state `s`. -/
def Returns (body : σ → σ ⊕ ρ) (s : σ) (r : ρ) : Prop := ∃ fuel, loop body fuel s = some r

/-- The loop gets from one state to another. -/
def Steps (body : σ → σ ⊕ ρ) : σ → σ → Prop := Relation.ReflTransGen fun s s' => body s = .inl s'

variable {body : σ → σ ⊕ ρ} {s s' : σ} {r : ρ}

theorem loop_inl (h : body s = .inl s') (fuel : ℕ) :
    loop body (fuel + 1) s = loop body fuel s' := by
  simp only [loop, h]

theorem loop_inr (h : body s = .inr r) (fuel : ℕ) : loop body (fuel + 1) s = some r := by
  simp only [loop, h]

theorem Returns.of_inr (h : body s = .inr r) : Returns body s r := ⟨1, loop_inr h 0⟩

theorem Returns.of_inl (h : body s = .inl s') (hr : Returns body s' r) : Returns body s r := by
  obtain ⟨fuel, hf⟩ := hr
  exact ⟨fuel + 1, (loop_inl h fuel).trans hf⟩

theorem Returns.of_steps (h : Steps body s s') (hr : Returns body s' r) : Returns body s r := by
  induction h using Relation.ReflTransGen.head_induction_on with
  | refl => exact hr
  | head hstep _ ih => exact ih.of_inl hstep

theorem returns_inl_iff (h : body s = .inl s') : Returns body s r ↔ Returns body s' r := by
  constructor
  · rintro ⟨fuel, hf⟩
    cases fuel with
    | zero => simp [loop] at hf
    | succ fuel => exact ⟨fuel, by rwa [loop_inl h] at hf⟩
  · exact fun hr => hr.of_inl h

theorem returns_inr_iff {r' : ρ} (h : body s = .inr r') : Returns body s r ↔ r = r' := by
  constructor
  · rintro ⟨fuel, hf⟩
    cases fuel with
    | zero => simp [loop] at hf
    | succ fuel =>
      rw [loop_inr h, Option.some.injEq] at hf
      exact hf.symm
  · rintro rfl
    exact .of_inr h

theorem exists_steps_of_loop {fuel : ℕ} (h : loop body fuel s = some r) :
    ∃ s', Steps body s s' ∧ body s' = .inr r := by
  induction fuel generalizing s with
  | zero => exact absurd h (by simp [loop])
  | succ fuel ih =>
    cases hb : body s with
    | inl s' =>
      rw [loop_inl hb] at h
      obtain ⟨s'', hsteps, hr⟩ := ih h
      exact ⟨s'', .head hb hsteps, hr⟩
    | inr r' =>
      rw [loop_inr hb, Option.some.injEq] at h
      exact ⟨s, .refl, h ▸ hb⟩

/-- A loop returns exactly if it reaches a state in which its body returns. -/
theorem returns_iff : Returns body s r ↔ ∃ s', Steps body s s' ∧ body s' = .inr r := by
  constructor
  · rintro ⟨fuel, h⟩
    exact exists_steps_of_loop h
  · rintro ⟨s', hsteps, hr⟩
    exact (Returns.of_inr hr).of_steps hsteps

variable {P : σ → Prop}

theorem Steps.invariant (hP : ∀ s s', P s → body s = .inl s' → P s') (h : Steps body s s')
    (hs : P s) : P s' := by
  induction h with
  | refl => exact hs
  | tail _ hstep ih => exact hP _ _ ih hstep

/-- A loop whose states can be measured returns, and what holds of every result holds of the result.
-/
theorem exists_returns {Q : ρ → Prop} (μ : σ → ℕ)
    (hstep : ∀ s s', P s → body s = .inl s' → P s' ∧ μ s' < μ s)
    (hret : ∀ s r, P s → body s = .inr r → Q r) (hs : P s) : ∃ r, Returns body s r ∧ Q r := by
  induction hn : μ s using Nat.strongRecOn generalizing s with
  | ind n ih =>
    cases hb : body s with
    | inl s' =>
      obtain ⟨hs', hlt⟩ := hstep s s' hs hb
      obtain ⟨r, hr, hQ⟩ := ih (μ s') (hn ▸ hlt) hs' rfl
      exact ⟨r, hr.of_inl hb, hQ⟩
    | inr r => exact ⟨r, .of_inr hb, hret s r hs hb⟩

/-- A loop does not return once it is in a set of states that it never leaves. -/
theorem not_returns (hP : ∀ s, P s → ∃ s', body s = .inl s' ∧ P s') (h : Steps body s s')
    (hs' : P s') : ¬Returns body s r := by
  rintro ⟨fuel, hf⟩
  -- a run of the whole loop is one from `s'`, too, since the steps are determined
  have hstuck : ∀ fuel s, P s → loop body fuel s = none := by
    intro fuel
    induction fuel with
    | zero => exact fun _ _ => rfl
    | succ fuel ih =>
      intro s hs
      obtain ⟨s', hb, hs'⟩ := hP s hs
      rw [loop_inl hb, ih s' hs']
  induction h using Relation.ReflTransGen.head_induction_on generalizing fuel with
  | refl => simp [hstuck fuel _ hs'] at hf
  | head hb _ ih =>
    cases fuel with
    | zero => simp [loop] at hf
    | succ fuel => exact ih fuel (by rwa [loop_inl hb] at hf)

theorem exists_seq (h : ∀ r, ¬Returns body s r) :
    ∃ f : ℕ → σ, f 0 = s ∧ ∀ n, body (f n) = .inl (f (n + 1)) := by
  have hstep : ∀ a : { a // ∀ r, ¬Returns body a r }, ∃ b : { b // ∀ r, ¬Returns body b r },
      body a = .inl b.1 := by
    rintro ⟨a, ha⟩
    cases hb : body a with
    | inl b => exact ⟨⟨b, fun r hr => ha r (hr.of_inl hb)⟩, rfl⟩
    | inr r => exact absurd (.of_inr hb) (ha r)
  choose next hnext using hstep
  refine ⟨fun n => (next^[n] ⟨s, h⟩).1, rfl, fun n => ?_⟩
  simp only [Function.iterate_succ_apply']
  exact hnext _

/-- A sequence of states with finitely many places, and a number that only grows up to a bound: at
some time it is back at a place, and the number is the same. -/
theorem exists_repeat {f : ℕ → σ} (place size : σ → ℕ) {p b : ℕ} (hplace : ∀ n, place (f n) < p)
    (hsize : ∀ n, size (f n) ≤ b) :
    ∃ i c, 0 < c ∧ place (f (i + c)) = place (f i) ∧ size (f (i + c)) = size (f i) := by
  obtain ⟨i, j, hne, heq⟩ := Finite.exists_ne_map_eq_of_infinite
    fun n => ((⟨place (f n), hplace n⟩, ⟨size (f n), Nat.lt_succ_of_le (hsize n)⟩) : Fin p × Fin
      (b + 1))
  obtain ⟨hp, hs⟩ := Prod.mk.inj heq
  rw [Fin.mk.injEq] at hp hs
  rcases Nat.lt_or_gt_of_ne hne with hlt | hlt
  · exact ⟨i, j - i, by omega, by rw [Nat.add_sub_of_le hlt.le,
      hp], by rw [Nat.add_sub_of_le hlt.le, hs]⟩
  · exact ⟨j, i - j, by omega, by rw [Nat.add_sub_of_le hlt.le,
      hp], by rw [Nat.add_sub_of_le hlt.le, hs]⟩

theorem loop_mono {fuel fuel' : ℕ} (h : loop body fuel s = some r) (hle : fuel ≤ fuel') :
    loop body fuel' s = some r := by
  induction fuel generalizing s fuel' with
  | zero => simp [loop] at h
  | succ fuel ih =>
    obtain ⟨n, rfl⟩ := Nat.exists_eq_add_of_le' (Nat.le_trans (Nat.le_add_left 1 fuel) hle)
    cases hb : body s with
    | inl s' =>
      rw [loop_inl hb] at h ⊢
      exact ih h (by omega)
    | inr r' =>
      rw [loop_inr hb] at h ⊢
      exact h

theorem Returns.unique {r' : ρ} (h : Returns body s r) (h' : Returns body s r') : r = r' := by
  obtain ⟨fuel, hf⟩ := h
  obtain ⟨fuel', hf'⟩ := h'
  have h1 := loop_mono hf (Nat.le_max_left fuel fuel')
  have h2 := loop_mono hf' (Nat.le_max_right fuel fuel')
  exact Option.some.inj (h1.symm.trans h2)

end Pptk.Lib
