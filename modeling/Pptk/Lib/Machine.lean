import Mathlib.Data.List.Basic

/-!
# Runs of a machine

A machine is a function that says for a state and an action which state follows, if the action is
possible.

Main results: `Along.invariant`, `Along.run_of`, `Along.forall_iff` and `runOut_refines`.
-/

namespace Pptk.Lib

open List Option

variable {σ ι : Type*} (step : σ → ι → Option σ)

/-- The state after some actions. -/
def run : σ → List ι → Option σ
  | s, [] => some s
  | s, a :: as => (step s a).bind fun s' => run s' as

/-- The machine with a log of its own, the latest first: `event` says for an action and the state
before it what is noted. -/
def logged {ε : Type*} (event : σ → ι → List ε) (s : σ × List ε) (a : ι) : Option (σ × List ε) :=
  (step s.1 a).map fun s' => (s', event s.1 a ++ s.2)

/-- Every step of the run meets `C`, a condition on the action and the state before it. -/
def Along (C : σ → ι → Prop) : σ → List ι → Prop
  | _, [] => True
  | s, a :: as => C s a ∧ ∀ s', step s a = some s' → Along C s' as

variable {step} {C : σ → ι → Prop} {P : σ → Prop} {s s' : σ} {a : ι} {as bs : List ι}

/-- A run in two parts. -/
theorem run_append : run step s (as ++ bs) = (run step s as).bind fun s' => run step s' bs := by
  induction as generalizing s with
  | nil => rfl
  | cons a as ih =>
    rw [cons_append, run, run]
    cases step s a with
    | none => rfl
    | some s' => exact ih

instance Along.decidable [∀ s a, Decidable (C s a)] : ∀ (s : σ) (as : List ι),
    Decidable (Along step C s as)
  | _, [] => isTrue trivial
  | s, a :: as =>
    match h : step s a with
    | none => decidable_of_iff (C s a) ⟨fun hC => ⟨hC, fun _ hs => nomatch h.symm.trans hs⟩,
      fun hC => hC.1⟩
    | some t =>
      have := Along.decidable t as
      decidable_of_iff (C s a ∧ Along step C t as)
        ⟨fun hC => ⟨hC.1, fun _ hs => some.inj (h.symm.trans hs) ▸ hC.2⟩,
          fun hC => ⟨hC.1, hC.2 t h⟩⟩

theorem Along.of_append (hC : Along step C s (as ++ bs)) :
    Along step C s as ∧ ∀ s', run step s as = some s' → Along step C s' bs := by
  induction as generalizing s with
  | nil =>
    refine ⟨trivial, fun s' h => ?_⟩
    obtain rfl := some.inj h
    exact hC
  | cons a as ih =>
    refine ⟨⟨hC.1, fun t ht => (ih (hC.2 t ht)).1⟩, fun s' h => ?_⟩
    obtain ⟨t, ht, h⟩ := bind_eq_some_iff.mp h
    exact (ih (hC.2 t ht)).2 s' h

/-- What every step keeps holds after a run whose steps meet a condition. -/
theorem Along.invariant (hstep : ∀ s a s', P s → C s a → step s a = some s' → P s')
    (hC : Along step C s as) (h : run step s as = some s') (hs : P s) : P s' := by
  induction as generalizing s with
  | nil =>
    obtain rfl := some.inj h
    exact hs
  | cons a as ih =>
    obtain ⟨t, ht, h⟩ := bind_eq_some_iff.mp h
    exact ih (hC.2 t ht) h (hstep s a t hs hC.1 ht)

/-- If every step that meets a condition is possible and keeps `R`, so does a run whose steps meet
it. `R` may depend on the actions that are left. -/
theorem Along.run_of {R : σ → List ι → Prop}
    (hstep : ∀ s a as, R s (a :: as) → C s a → ∃ s', step s a = some s' ∧ R s' as)
    (hC : Along step C s as) (hs : R s as) : ∃ s', Lib.run step s as = some s' ∧ R s' [] := by
  induction as generalizing s with
  | nil => exact ⟨s, rfl, hs⟩
  | cons a as ih =>
    obtain ⟨t, ht, hRt⟩ := hstep s a as hs hC.1
    rw [Lib.run, ht]
    exact ih (hC.2 t ht) hRt

/-- If every step that meets the condition is possible, so is such a run. -/
theorem Along.run (hstep : ∀ s a, P s → C s a → ∃ s', step s a = some s' ∧ P s')
    (hC : Along step C s as) (hs : P s) : ∃ s', Lib.run step s as = some s' ∧ P s' :=
  Along.run_of (R := fun s _ => P s) (fun s a _ => hstep s a) hC hs

/-- Suppose that a step that meets `C` is not possible and does not meet `D`, or keeps `P`, and
keeps `Q` exactly if it meets `D`. Then a run of such steps is possible with `Q` in all of its
states exactly if all of them meet `D`. -/
theorem Along.forall_iff {D : σ → ι → Prop} {Q : σ → Prop}
    (hstep : ∀ s a, P s → Q s → C s a →
      step s a = none ∧ ¬D s a ∨ ∃ s', step s a = some s' ∧ P s' ∧ (Q s' ↔ D s a))
    (hC : Along step C s as) (hP : P s) (hQ : Q s) :
    (∀ bs, bs <+: as → ∃ s', Lib.run step s bs = some s' ∧ Q s') ↔ Along step D s as := by
  induction as generalizing s with
  | nil =>
    refine iff_of_true (fun bs hbs => ?_) trivial
    obtain rfl := prefix_nil.mp hbs
    exact ⟨s, rfl, hQ⟩
  | cons a as ih =>
    have hfirst : [a] <+: a :: as := (prefix_cons_inj a).mpr nil_prefix
    rcases hstep s a hP hQ hC.1 with ⟨hnone, hD⟩ | ⟨t, ht, hPt, hQt⟩
    · refine iff_of_false (fun hall => ?_) fun h => hD h.1
      obtain ⟨s', hrun, -⟩ := hall [a] hfirst
      rw [Lib.run, hnone] at hrun
      exact nomatch hrun
    have hrun : ∀ bs, Lib.run step s (a :: bs) = Lib.run step t bs := fun bs => by
      rw [Lib.run, ht]
      rfl
    constructor
    · intro hall
      obtain ⟨t', ht', hQt'⟩ := hall [a] hfirst
      obtain rfl : t = t' := some.inj ((hrun []).symm.trans ht')
      refine ⟨hQt.mp hQt', fun t' ht' => ?_⟩
      obtain rfl := some.inj (ht.symm.trans ht')
      refine (ih (hC.2 t ht) hPt hQt').mp fun bs hbs => ?_
      rw [← hrun]
      exact hall (a :: bs) ((prefix_cons_inj a).mpr hbs)
    · intro hD bs hbs
      rcases bs with _ | ⟨b, bs⟩
      · exact ⟨s, rfl, hQ⟩
      · obtain ⟨rfl, hrest⟩ := cons_prefix_cons.mp hbs
        rw [hrun]
        exact (ih (hC.2 t ht) hPt (hQt.mpr hD.1)).mpr (hD.2 t ht) bs hrest

theorem along_of_forall_mem (h : ∀ a ∈ as, ∀ s, C s a) : Along step C s as := by
  induction as generalizing s with
  | nil => trivial
  | cons a as ih => exact ⟨h a (by simp) s, fun t _ => ih fun b hb => h b (by simp [hb])⟩

/-- What every step keeps holds after a run. -/
theorem run_invariant (hstep : ∀ s a s', P s → step s a = some s' → P s')
    (h : run step s as = some s') (hs : P s) : P s' := by
  induction as generalizing s with
  | nil =>
    obtain rfl := some.inj h
    exact hs
  | cons a as ih =>
    obtain ⟨t, ht, h⟩ := bind_eq_some_iff.mp h
    exact ih h (hstep s a t hs ht)

/-! ## Outputs -/

section Outputs

variable {τ κ ο : Type*}

/-- The state and the outputs after some actions. -/
def runOut (step : σ → ι → Option (σ × ο)) : σ → List ι → Option (σ × List ο)
  | s, [] => some (s, [])
  | s, a :: as => (step s a).bind fun r => (runOut step r.1 as).map fun q => (q.1, r.2 :: q.2)

theorem length_of_runOut {step : σ → ι → Option (σ × ο)} {outs : List ο}
    (h : runOut step s as = some (s', outs)) : outs.length = as.length := by
  induction as generalizing s outs with
  | nil =>
    rw [← (Prod.mk.inj (some.inj h)).2]
    rfl
  | cons a as ih =>
    obtain ⟨r, _, h⟩ := bind_eq_some_iff.mp h
    obtain ⟨q, hq, h⟩ := map_eq_some_iff.mp h
    obtain ⟨rfl, rfl⟩ := Prod.mk.inj h
    rw [length_cons, length_cons, ih hq]

/-- The same for a machine in which every action is possible. -/
def runAll (step : τ → κ → τ × ο) : τ → List κ → τ × List ο
  | t, [] => (t, [])
  | t, k :: ks => ((runAll step (step t k).1 ks).1, (step t k).2 :: (runAll step (step t k).1 ks).2)

/-- If every action of a machine does what the abstract machine does, so does every run. -/
theorem runOut_refines {step : σ → ι → Option (σ × ο)} {spec : τ → κ → τ × ο} {f : ι → κ}
    {C : ι → Prop} {R : σ → τ → Prop}
    (hsim : ∀ s t a, R s t → C a → ∃ s', step s a = some (s', (spec t (f a)).2) ∧
      R s' (spec t (f a)).1) {t : τ} (hR : R s t) (hC : ∀ a ∈ as, C a) :
    ∃ s', runOut step s as = some (s', (runAll spec t (as.map f)).2) ∧
      R s' (runAll spec t (as.map f)).1 := by
  induction as generalizing s t with
  | nil => exact ⟨s, rfl, hR⟩
  | cons a as ih =>
    obtain ⟨s1, hstep, hR1⟩ := hsim s t a hR (hC a (by simp))
    obtain ⟨s', hrun, hR'⟩ := ih hR1 fun b hb => hC b (by simp [hb])
    refine ⟨s', ?_, hR'⟩
    rw [runOut, hstep, bind_some, hrun]
    rfl

end Outputs

end Pptk.Lib
