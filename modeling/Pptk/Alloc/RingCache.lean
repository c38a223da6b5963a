import Pptk.Alloc.Caching
import Pptk.Lib.RingBuf
import Mathlib.Data.List.Infix

/-!
# Allocator with ring buffers

Model of the caches of `alloc/rballoc.h`. A ring holds one block less than its capacity. When a
local ring is full, `rb_alloc_halve` leaves half the capacity in it, which is no room for another
block if the capacity is 1 or 2: then the block is put in a full ring, and the ring is taken for
empty.

Main results: `rbLaws`, `rb_alloc_conserved_iff` and `rb_alloc_loses_block`.
-/

namespace Pptk.Alloc

open Lib List Option

variable {β : Type*}

/-! ## Model -/

/-- How the caches of `rballoc` are kept (rballoc.h:11-27): `rb_alloc_local_empty` and
`rb_alloc_global_empty` (42-50), `rb_alloc_local_full` and `rb_alloc_global_full` (62-80),
`rb_alloc_local_size` (rballoc.c:161-171), a block is taken from `start` and put at `end`. -/
def rbKind (null : β) : CacheKind β (RingBuf β) where
  empty := RingBuf.isEmpty
  full := RingBuf.isFull
  size := RingBuf.size
  capacity := RingBuf.cap
  take r := (r.front, r.pop null)
  put := RingBuf.push

theorem rb_full_iff (r : RingBuf β) : r.isFull = true ↔ r.cap - 1 ≤ r.contents.length := by
  have hlt := r.size_lt
  rw [RingBuf.isFull_iff, RingBuf.length_contents]
  omega

def rbLaws (null : β) : CacheLaws (rbKind null) fun n => n - 1 where
  items := RingBuf.contents
  size_eq r := r.length_contents.symm
  empty_iff r := r.isEmpty_iff
  full_iff r := rb_full_iff r
  take_items r hr := by
    rw [RingBuf.contents_pop null hr]
    exact .refl _
  put_items r b hr := by
    have hfull : r.isFull = false := by
      rw [Bool.eq_false_iff]
      intro h
      exact absurd ((rb_full_iff r).mp h) (Nat.not_le.mpr hr)
    show (r.push b).contents.Perm _
    rw [RingBuf.contents_push b hfull]
    exact perm_append_singleton _ _
  take_capacity _ := rfl
  put_capacity _ _ := rfl
  half_le n := by omega

/-- `rb_alloc_global_init` and `rb_alloc_local_init` (rballoc.c:79-101, 122-140). -/
def rbInit {Λ : Type*} (null : β) (lcap : Λ → ℕ) (hlcap : ∀ l, 1 ≤ lcap l) (gcap : ℕ)
    (hgcap : 1 ≤ gcap) (nativeSize : ℕ) : AllocState Λ β (RingBuf β) :=
  allocInit (fun l => .empty (lcap l) (hlcap l) null) (.empty gcap hgcap null) nativeSize

/-- Every block that `malloc` has given out is in exactly one place and there once, and every other
block is in none. -/
def NoneLost {Λ : Type*} (null : β) (s : AllocState Λ β (RingBuf β)) : Prop :=
  Scattered (places (rbLaws null) s) fun b => s.live b = true

/-! ## Small local caches -/

section Steps

variable {Λ : Type*} [DecidableEq Λ] [DecidableEq β] {null : β} {s s' : AllocState Λ β (RingBuf β)}
  {lcap : Λ → ℕ}
  {gcap : ℕ} {l : Λ}

/-- The call in which a block is about to be put in the local cache. -/
def AllocPc.Storing : AllocPc β → Prop
  | .halving _ => True
  | .spilling _ => True
  | _ => False

/-- A call that frees a block has found a ring of capacity 1 or 2 full, and it still is. -/
def RbStuck (lcap : Λ → ℕ) (s : AllocState Λ β (RingBuf β)) : Prop :=
  ∀ l, (s.pc l).Storing → lcap l ≤ 2 → (s.loc l).isFull = true

omit [DecidableEq β] in
theorem not_lt_size_of_isFull {r : RingBuf β} (hfull : r.isFull = true) (hcap : r.cap ≤ 2) :
    ¬r.size > r.cap / 2 := by
  have h := r.isFull_iff.mp hfull
  omega

/-- A full ring of capacity 1 or 2 stays full until the block is put in it. -/
theorem RbStuck.step (h : RbStuck lcap s) (hcap : ∀ l, (s.loc l).cap = lcap l) {a : AllocAction Λ β}
    (hstep : s.step (rbKind null) a = some s') : RbStuck lcap s' := by
  intro l hpc' hsmall
  by_cases hl : l = a.via
  · subst hl
    cases a with
    | alloc l size m =>
      exfalso
      simp only [AllocState.step, AllocState.alloc] at hstep
      cases hpc : s.pc l with
      | idle =>
        simp only [hpc] at hstep
        split_ifs at hstep
        · rw [(malloc_frame hstep).2, AllocAction.via, hpc] at hpc'
          exact hpc'
        · obtain rfl := some.inj hstep
          rw [AllocAction.via, setPc_pc_self] at hpc'
          exact hpc'
        · obtain rfl := some.inj hstep
          have hidle : (s.takeLocal (rbKind null) l).pc l = .idle := hpc
          rw [AllocAction.via, hidle] at hpc'
          exact hpc'
      | _ => simp [hpc] at hstep
    | fill l =>
      exfalso
      simp only [AllocState.step, AllocState.fill] at hstep
      cases hpc : s.pc l with
      | filling =>
        simp only [hpc] at hstep
        split_ifs at hstep
        · obtain rfl := some.inj hstep
          change (s.pc l).Storing at hpc'
          rw [hpc] at hpc'
          exact hpc'
        · obtain rfl := some.inj hstep
          rw [AllocAction.via, setPc_pc_self] at hpc'
          exact hpc'
      | _ => simp [hpc] at hstep
    | allocRest l m =>
      exfalso
      simp only [AllocState.step, AllocState.allocRest] at hstep
      cases hpc : s.pc l with
      | filled =>
        simp only [hpc] at hstep
        split_ifs at hstep
        · rw [(malloc_frame hstep).2, AllocAction.via, setPc_pc_self] at hpc'
          exact hpc'
        · obtain rfl := some.inj hstep
          change ((s.setPc l .idle).pc l).Storing at hpc'
          rw [setPc_pc_self] at hpc'
          exact hpc'
      | _ => simp [hpc] at hstep
    | free l b =>
      simp only [AllocState.step, AllocState.free] at hstep
      cases hpc : s.pc l with
      | idle =>
        simp only [hpc] at hstep
        split_ifs at hstep with hheld hsize hfull hlock
        · obtain rfl := some.inj hstep
          change (s.pc l).Storing at hpc'
          rw [hpc] at hpc'
          exact hpc'.elim
        · obtain rfl := some.inj hstep
          exact hfull
        · obtain rfl := some.inj hstep
          change (s.pc l).Storing at hpc'
          rw [hpc] at hpc'
          exact hpc'.elim
      | _ => simp [hpc] at hstep
    | halve l =>
      simp only [AllocState.step, AllocState.halve] at hstep
      cases hpc : s.pc l with
      | halving b =>
        simp only [hpc] at hstep
        have hfull := h l (by rw [hpc]; trivial) hsmall
        have hnot := not_lt_size_of_isFull hfull (by rw [hcap]; exact hsmall)
        split_ifs at hstep with hcond
        · exact absurd hcond.1 hnot
        · obtain rfl := some.inj hstep
          exact hfull
      | _ => simp [hpc] at hstep
    | spill l =>
      simp only [AllocState.step, AllocState.spill] at hstep
      cases hpc : s.pc l with
      | spilling b =>
        simp only [hpc] at hstep
        have hfull := h l (by rw [hpc]; trivial) hsmall
        have hnot := not_lt_size_of_isFull hfull (by rw [hcap]; exact hsmall)
        split_ifs at hstep with hcond
        · exact absurd hcond hnot
        · obtain rfl := some.inj hstep
          change ((s.setPc l .idle).pc l).Storing at hpc'
          rw [setPc_pc_self] at hpc'
          exact hpc'.elim
      | _ => simp [hpc] at hstep
  · obtain ⟨hloc, hpc⟩ := step_frame hstep hl
    rw [hpc] at hpc'
    rw [hloc]
    exact h l hpc' hsmall

/-- The end of a free call that has found a ring of capacity 1 or 2 full: its block is lost. -/
theorem not_noneLost_spill (h : AllocInv (rbLaws null) lcap gcap s) (hstuck : RbStuck lcap s)
    (hsmall : lcap l ≤ 2) (hstep : s.step (rbKind null) (.spill l) = some s') :
    ¬NoneLost null s' := by
  simp only [AllocState.step, AllocState.spill] at hstep
  cases hpc : s.pc l with
  | spilling b =>
    simp only [hpc] at hstep
    have hcap := h.bounds.loc_cap l
    have hfull := hstuck l (by rw [hpc]; trivial) hsmall
    have hnot := not_lt_size_of_isFull hfull (hcap.le.trans hsmall)
    split_ifs at hstep with hcond
    · exact absurd hcond hnot
    · obtain rfl := some.inj hstep
      have hcall : b ∈ places (rbLaws null) s (.call l) := by
        rw [places, hpc]
        simp [AllocPc.block]
      have hlive : s.live b = true := (h.scattered.live_iff b).mpr ⟨_, hcall⟩
      refine not_scattered hlive fun p hp => ?_
      rw [places_setLoc, places_setPc] at hp
      rw [Function.update_apply] at hp
      split_ifs at hp with hploc
      · have hnil : (rbLaws null).items ((rbKind null).put (s.loc l) b) = [] :=
          RingBuf.contents_push_of_isFull b hfull
        rw [hnil] at hp
        simp at hp
      rw [Function.update_apply] at hp
      split_ifs at hp with hpcall
      · simp [AllocPc.block] at hp
      · exact hpcall (h.scattered.unique p _ b hp hcall)
  | _ => simp [hpc] at hstep

end Steps

/-! ## Runs -/

section Runs

variable {Λ : Type*} [DecidableEq Λ] [DecidableEq β] {null : β} {s s' : AllocState Λ β (RingBuf β)}
  {lcap : Λ → ℕ}
  {gcap : ℕ}

/-- If no block is lost in a run, every free call that has found its ring full ends in one of
capacity at least 3. -/
theorem le_lcap_of_noneLost (h : AllocInv (rbLaws null) lcap gcap s) (hstuck : RbStuck lcap s)
    {as : List (AllocAction Λ β)} (hrun : run (AllocState.step (rbKind null)) s as = some s')
    (hkept : ∀ bs t, bs <+: as → run (AllocState.step (rbKind null)) s bs = some t →
      NoneLost null t) : ∀ l, AllocAction.spill l ∈ as → 3 ≤ lcap l := by
  induction as generalizing s with
  | nil => simp
  | cons a as ih =>
    obtain ⟨t, hstep, hrun⟩ := bind_eq_some_iff.mp hrun
    have hlarge : ∀ l, a = .spill l → 3 ≤ lcap l := by
      rintro l rfl
      by_contra hsmall
      have hone : run (AllocState.step (rbKind null)) s [.spill l] = some t := by
        rw [run, hstep]
        rfl
      have hprefix : [AllocAction.spill l] <+: .spill l :: as := ⟨as, rfl⟩
      exact not_noneLost_spill h hstuck (by omega) hstep (hkept _ t hprefix hone)
    have hroom : ∀ l, a = .spill l → lcap l / 2 < lcap l - 1 := by
      intro l hl
      have := hlarge l hl
      omega
    have hrest := ih (h.step hstep hroom) (hstuck.step h.bounds.loc_cap hstep) hrun
      fun bs u hbs hu => by
      refine hkept (a :: bs) u ((cons_prefix_cons).mpr ⟨rfl, hbs⟩) ?_
      rw [run, hstep]
      exact hu
    intro l hl
    rcases mem_cons.mp hl with heq | hl
    · exact hlarge l heq.symm
    · exact hrest l hl

end Runs

/-- In a run from empty caches no block is ever lost or handed out twice, exactly if every free call
that has found its local ring full and ends in the run goes through a local cache of capacity at
least 3. -/
theorem rb_alloc_conserved_iff {Λ β : Type*} [DecidableEq Λ] [DecidableEq β] (null : β)
    (lcap : Λ → ℕ) (hlcap : ∀ l, 1 ≤ lcap l) (gcap : ℕ) (hgcap : 1 ≤ gcap) (nativeSize : ℕ)
    (as : List (AllocAction Λ β)) (s : AllocState Λ β (RingBuf β))
    (hrun : run (AllocState.step (rbKind null)) (rbInit null lcap hlcap gcap hgcap nativeSize) as =
      some s) :
    (∀ bs t, bs <+: as →
      run (AllocState.step (rbKind null)) (rbInit null lcap hlcap gcap hgcap nativeSize) bs =
        some t →
      NoneLost null t) ↔
    ∀ l, AllocAction.spill l ∈ as → 3 ≤ lcap l := by
  have hinit : AllocInv (rbLaws null) lcap gcap (rbInit null lcap hlcap gcap hgcap nativeSize) := by
    have hempty : ∀ n (hn : 1 ≤ n), (rbLaws null).items (.empty n hn null) = [] :=
      fun n hn => RingBuf.contents_empty n hn null
    unfold rbInit
    apply AllocInv.init
    · intro l
      exact ⟨rfl, hempty (lcap l) (hlcap l)⟩
    · exact ⟨rfl, hempty gcap hgcap⟩
  constructor
  · exact le_lcap_of_noneLost hinit (fun l hpc => hpc.elim) hrun
  · intro hlarge bs t hbs ht
    refine (hinit.run (fun l hl => ?_) ht).scattered
    have := hlarge l (hbs.subset hl)
    omega

/-- One block is allocated and freed. -/
def oneBlock : List (AllocAction Unit ℕ) :=
  [.alloc () 32 none, .fill (), .allocRest () (some 100), .free () 100, .halve (), .spill ()]

/-- With a local capacity of 1 the block is lost. -/
theorem rb_alloc_loses_block : ∃ s : AllocState Unit ℕ (RingBuf ℕ),
    run (AllocState.step (rbKind 0))
      (rbInit 0 (fun _ => 1) (fun _ => Nat.le_refl 1) 1 (Nat.le_refl 1) 32) oneBlock =
      some s ∧ s.live 100 = true ∧ ∀ p, 100 ∉ places (rbLaws 0) s p := by
  refine ⟨_, rfl, by decide, fun p => ?_⟩
  cases p with
  | held => decide
  | call l =>
    cases l
    decide
  | loc l =>
    cases l
    decide
  | glob => decide

/-- With a local capacity of 3 three blocks are freed, and one of them goes to the global cache. -/
theorem rb_alloc_conserved_three : ∃ s : AllocState Unit ℕ (RingBuf ℕ),
    run (AllocState.step (rbKind 0)) (rbInit 0 (fun _ => 3) (fun _ => by omega) 2 (by omega) 32)
      [.alloc () 32 none, .fill (), .allocRest () (some 100), .alloc () 32 none, .fill (),
        .allocRest () (some 200),
        .alloc () 32 none, .fill (), .allocRest () (some 300), .free () 100, .free () 200,
        .free () 300, .halve (),
        .halve (), .spill ()] = some s ∧ 100 ∈ places (rbLaws 0) s .glob ∧ NoneLost 0 s := by
  refine ⟨_, rfl, by decide, ?_⟩
  exact (rb_alloc_conserved_iff 0 (fun _ : Unit => 3) (fun _ => by omega) 2 (by omega) 32
    [.alloc () 32 none, .fill (), .allocRest () (some 100), .alloc () 32 none, .fill (),
      .allocRest () (some 200),
      .alloc () 32 none, .fill (), .allocRest () (some 300), .free () 100, .free () 200,
      .free () 300, .halve (),
      .halve (), .spill ()] _ rfl).mpr (fun _ _ => le_rfl) _ _ (prefix_refl _) rfl

end Pptk.Alloc
