import Pptk.Lib.Machine
import Pptk.Avltree.Run

/-!
# Timers in a search tree

Model of `timerrb/timerrb.h` and `timeravl/timeravl.h`, which differ in the tree they use. The timer
with the earliest time is cached in `next`, which `add`, `remove` and `modify` set but `init` does
not: it keeps what was in memory before.

Main results: `TreeTimer.next_correct_iff` and `tree_timers_next_iff`.
-/

namespace Pptk.Timer

open Lib Function List Option

/-! ## Model -/

section Model

variable {ι : Type*} [DecidableEq ι]

/-- `timerrb_cmp` (timerrb.c:3-16), `timeravl_cmp` (timeravl.c:3-16). -/
def timerCmp (time64 : ι → UInt64) (n1 n2 : ι) : ℤ :=
  if time64 n1 < time64 n2 then -1 else if time64 n1 > time64 n2 then 1 else 0

/-- `struct timerrb` (timerrb.h:10-13), `struct timeravl` (timeravl.h:10-13), with the times of all
timers. -/
structure TreeTimer (S : SearchTree ι) where
  tree : S.Tree
  time64 : ι → UInt64
  next : Option ι

/-- The timers are added, removed or modified; a new time is set before the function is called. -/
inductive TimerOp (ι : Type*)
  | add (timer : ι) (time64 : UInt64)
  | remove (timer : ι)
  | modify (timer : ι) (time64 : UInt64)

namespace TreeTimer

variable {S : SearchTree ι} (fuel : ℕ) (s : TreeTimer S)

/-- `timerrb_init`, `timeravl_init` (lines 42-45). `next` is not set. -/
def init : TreeTimer S := { s with tree := S.init s.tree }

/-- `timerrb_next_expiry_time` (timerrb.h:31-38), `timeravl_next_expiry_time` (timeravl.h:31-38). -/
def nextExpiryTime : UInt64 :=
  match s.next with
  | none => 0xFFFFFFFFFFFFFFFF
  | some timer => s.time64 timer

/-- `timerrb_next_expiry_timer`, `timeravl_next_expiry_timer` (lines 80-83). -/
def nextExpiryTimer : Option ι := s.next

/-- `timerrb_update_next`, `timeravl_update_next` (lines 47-59). -/
def updateNext :
    Option (TreeTimer S) := (S.leftmost fuel s.tree).map fun node => { s with next := node }

/-- `timerrb_add`, `timeravl_add` (lines 61-65). -/
def add (timer : ι) : Option (TreeTimer S) := do
  let tree ← S.insert (timerCmp s.time64) fuel s.tree timer
  updateNext fuel { s with tree := tree }

/-- `timerrb_remove`, `timeravl_remove` (lines 67-71). -/
def remove (timer : ι) : Option (TreeTimer S) := do
  let tree ← S.delete fuel s.tree timer
  updateNext fuel { s with tree := tree }

/-- `timerrb_modify`, `timeravl_modify` (lines 73-78). -/
def modify (timer : ι) : Option (TreeTimer S) := do
  let tree ← S.delete fuel s.tree timer
  let tree ← S.insert (timerCmp s.time64) fuel tree timer
  updateNext fuel { s with tree := tree }

/-- The time of a timer is set. -/
def setTime (timer : ι) (time64 : UInt64) :
    TreeTimer S := { s with time64 := update s.time64 timer time64 }

/-- One operation. -/
def step : TimerOp ι → Option (TreeTimer S)
  | .add timer t => add fuel (s.setTime timer t) timer
  | .remove timer => remove fuel s timer
  | .modify timer t => modify fuel (s.setTime timer t) timer

end TreeTimer

/-- The timers that are present after an operation. -/
def TimerOp.live (timers : List ι) : TimerOp ι → List ι
  | .add timer _ => timer :: timers
  | .remove timer => timers.erase timer
  | .modify _ _ => timers

theorem TimerOp.length_live_le (timers : List ι) (op : TimerOp ι) :
    (op.live timers).length ≤ timers.length + 1 := by
  cases op with
  | add timer t => rfl
  | remove timer => exact erase_sublist.length_le.trans (Nat.le_succ _)
  | modify timer t => exact Nat.le_succ _

/-- A timer that is added is not present, one that is removed or modified is. -/
def TimerOp.Allowed (timers : List ι) : TimerOp ι → Prop
  | .add timer _ => timer ∉ timers
  | .remove timer => timer ∈ timers
  | .modify timer _ => timer ∈ timers

/-- The same for a sequence of operations. -/
def TimerOp.AllAllowed : List ι → List (TimerOp ι) → Prop
  | _, [] => True
  | timers, op :: ops => op.Allowed timers ∧ AllAllowed (op.live timers) ops

end Model

/-! ## The cached timer -/

variable {ι : Type*} [DecidableEq ι]

omit [DecidableEq ι] in
theorem timerCmp_nonpos {time64 : ι → UInt64} {a b : ι} :
    timerCmp time64 a b ≤ 0 ↔ time64 a ≤ time64 b := by
  unfold timerCmp
  simp only [UInt64.le_iff_toNat_le, gt_iff_lt, UInt64.lt_iff_toNat_lt]
  split_ifs <;> omega

omit [DecidableEq ι] in
theorem totalPreorderCmp_timerCmp (time64 : ι → UInt64) : TotalPreorderCmp (timerCmp time64) := by
  constructor
  · intro a b
    unfold timerCmp
    simp only [gt_iff_lt, UInt64.lt_iff_toNat_lt]
    split_ifs <;> omega
  · intro a b c
    rw [timerCmp_nonpos, timerCmp_nonpos, timerCmp_nonpos]
    exact UInt64.le_trans

theorem timerCmp_update {time64 : ι → UInt64} {k : ι} {t : UInt64} {a b : ι} (ha : a ≠ k)
    (hb : b ≠ k) : timerCmp (update time64 k t) a b = timerCmp time64 a b := by
  rw [timerCmp, timerCmp, update_of_ne ha, update_of_ne hb]

namespace TreeTimer

variable {S : SearchTree ι} {s : TreeTimer S} {timers : List ι} {fuel : ℕ}

/-- What is cached is a present timer with a minimal time, or null if there is none. -/
structure NextCorrect (s : TreeTimer S) (timers : List ι) : Prop where
  none_iff : s.nextExpiryTimer = none ↔ timers = []
  minimal : ∀ k, s.nextExpiryTimer = some k → k ∈ timers ∧ ∀ j ∈ timers, s.time64 k ≤ s.time64 j
  time : s.nextExpiryTime = (s.nextExpiryTimer.map s.time64).getD 0xFFFFFFFFFFFFFFFF

/-- The tree has the present timers in order. -/
def Inv (s : TreeTimer S) (timers : List ι) : Prop :=
  ∃ xs, S.Holds s.tree xs ∧ SortedBy (timerCmp s.time64) xs ∧ xs.Perm timers

theorem nextExpiryTime_eq (s : TreeTimer S) :
    s.nextExpiryTime = (s.nextExpiryTimer.map s.time64).getD 0xFFFFFFFFFFFFFFFF := by
  rw [nextExpiryTime, nextExpiryTimer]
  cases s.next <;> rfl

theorem Inv.updateNext (h : s.Inv timers) (hfuel : timers.length ≤ fuel) :
    ∃ s', updateNext fuel s = some s' ∧ s'.Inv timers ∧ s'.NextCorrect timers := by
  obtain ⟨xs, hholds, hsorted, hperm⟩ := h
  have hleft : S.leftmost fuel s.tree = some xs.head? :=
    S.holds_leftmost hholds (by rw [hperm.length_eq]; exact hfuel)
  refine ⟨{ s with next := xs.head? }, by rw [TreeTimer.updateNext, hleft, map_some],
    ⟨xs, hholds, hsorted, hperm⟩, ⟨?_, ?_, nextExpiryTime_eq _⟩⟩
  · show xs.head? = none ↔ timers = []
    rw [head?_eq_none_iff]
    constructor
    · rintro rfl
      exact hperm.nil_eq.symm
    · rintro rfl
      exact hperm.eq_nil
  · intro k hk
    obtain ⟨ys, rfl⟩ := head?_eq_some_iff.mp (show xs.head? = some k from hk)
    refine ⟨hperm.mem_iff.mp (by simp), fun j hj => ?_⟩
    exact timerCmp_nonpos.mp (hsorted.head_le (totalPreorderCmp_timerCmp _) j
      (hperm.mem_iff.mpr hj))

theorem Inv.setTime {k : ι} (h : s.Inv timers) (hk : k ∉ timers) (t : UInt64) :
    (s.setTime k t).Inv timers := by
  obtain ⟨xs, hholds, hsorted, hperm⟩ := h
  have hne : ∀ a ∈ xs, a ≠ k := by
    rintro a ha rfl
    exact hk (hperm.mem_iff.mp ha)
  exact ⟨xs, hholds, hsorted.congr fun a ha b hb => timerCmp_update (hne a ha) (hne b hb), hperm⟩

theorem Inv.add {k : ι} (h : s.Inv timers) (hk : k ∉ timers) (hfuel : 2 * timers.length < fuel) :
    ∃ s', TreeTimer.add fuel s k = some s' ∧ s'.Inv (k :: timers) ∧
      s'.NextCorrect (k :: timers) := by
  obtain ⟨xs, hholds, hsorted, hperm⟩ := h
  obtain ⟨t', ys, hinsert, hholds', hsorted', hperm'⟩ :=
    S.holds_insert (totalPreorderCmp_timerCmp s.time64) hholds hsorted
    (fun hmem => hk (hperm.mem_iff.mp hmem))
      (show 2 * xs.length < fuel by rw [hperm.length_eq]; exact hfuel)
  have hinv : Inv { s with tree := t' } (k :: timers) :=
    ⟨ys, hholds', hsorted', hperm'.trans (hperm.cons k)⟩
  have hlen : (k :: timers).length ≤ fuel := by
    rw [length_cons]
    omega
  obtain ⟨s', hnext, hinv', hcorrect⟩ := hinv.updateNext hlen
  exact ⟨s', by rw [TreeTimer.add, hinsert]; exact hnext, hinv', hcorrect⟩

theorem Inv.remove {k : ι} (h : s.Inv timers) (hk : k ∈ timers) (hfuel : timers.length ≤ fuel) :
    ∃ s', TreeTimer.remove fuel s k = some s' ∧ s'.Inv (timers.erase k) ∧
      s'.NextCorrect (timers.erase k) := by
  obtain ⟨xs, hholds, hsorted, hperm⟩ := h
  obtain ⟨t', hdelete, hholds'⟩ := S.holds_delete hholds (hperm.mem_iff.mpr hk)
    (show xs.length ≤ fuel by rw [hperm.length_eq]; exact hfuel)
  have hinv : Inv { s with tree := t' } (timers.erase k) :=
    ⟨xs.erase k, hholds', hsorted.sublist erase_sublist, hperm.erase k⟩
  obtain ⟨s', hnext, hinv', hcorrect⟩ := hinv.updateNext (erase_sublist.length_le.trans hfuel)
  exact ⟨s', by rw [TreeTimer.remove, hdelete]; exact hnext, hinv', hcorrect⟩

/-- The time of a present timer has changed, so the tree may be out of order at this timer only. -/
theorem Inv.modify {k : ι} (h : s.Inv timers) (hk : k ∈ timers) (t : UInt64)
    (hfuel : 2 * timers.length < fuel) :
    ∃ s', TreeTimer.modify fuel (s.setTime k t) k = some s' ∧ s'.Inv timers ∧
      s'.NextCorrect timers := by
  obtain ⟨xs, hholds, hsorted, hperm⟩ := h
  obtain ⟨t1, t', ys, hdelete, hinsert, hholds', hsorted', hperm'⟩ := S.holds_reinsert
    (totalPreorderCmp_timerCmp (update s.time64 k t)) hholds hsorted (hperm.mem_iff.mpr hk)
    (fun a ha b hb => timerCmp_update ha hb)
      (show 2 * xs.length < fuel by rw [hperm.length_eq]; exact hfuel)
  have hinv : Inv { s.setTime k t with tree := t' } timers :=
    ⟨ys, hholds', hsorted', hperm'.trans hperm⟩
  obtain ⟨s', hnext, hinv', hcorrect⟩ := hinv.updateNext (show timers.length ≤ fuel by omega)
  refine ⟨s', ?_, hinv', hcorrect⟩
  have hdelete' : S.delete fuel (s.setTime k t).tree k = some t1 := hdelete
  rw [TreeTimer.modify, hdelete']
  show (S.insert (timerCmp (update s.time64 k t)) fuel t1 k).bind _ = _
  rw [hinsert]
  exact hnext

/-- Each operation keeps the tree in order and sets `next`. -/
theorem Inv.step {op : TimerOp ι} (h : s.Inv timers) (hop : op.Allowed timers)
    (hfuel : 2 * timers.length < fuel) :
    ∃ s', TreeTimer.step fuel s op = some s' ∧ s'.Inv (op.live timers) ∧
      s'.NextCorrect (op.live timers) := by
  rcases op with ⟨k, t⟩ | k | ⟨k, t⟩
  · exact (h.setTime hop t).add hop hfuel
  · exact h.remove hop (by omega)
  · exact h.modify hop t hfuel

/-- After every part of a run the tree is in order, and `next` is set if there was an operation. -/
theorem Inv.run {ops : List (TimerOp ι)} (h : s.Inv timers) (hops : TimerOp.AllAllowed timers ops)
    (hfuel : 2 * (timers.length + ops.length) < fuel + 2) :
    ∀ bs, bs <+: ops → ∃ s', Lib.run (TreeTimer.step fuel) s bs = some s' ∧
      (bs ≠ [] → s'.NextCorrect (bs.foldl TimerOp.live timers)) := by
  induction ops generalizing s timers with
  | nil =>
    intro bs hbs
    obtain rfl := prefix_nil.mp hbs
    exact ⟨s, rfl, fun hne => absurd rfl hne⟩
  | cons op ops ih =>
    intro bs hbs
    rw [length_cons] at hfuel
    rcases bs with _ | ⟨b, bs⟩
    · exact ⟨s, rfl, fun hne => absurd rfl hne⟩
    · obtain ⟨rfl, hpre⟩ := cons_prefix_cons.mp hbs
      obtain ⟨s1, hstep, hinv, hcorrect⟩ := h.step hops.1 (show 2 * timers.length < fuel by omega)
      have hlen : (b.live timers).length ≤ timers.length + 1 := TimerOp.length_live_le timers b
      obtain ⟨s', hrun, hcorrect'⟩ := ih hinv hops.2 (by omega) bs hpre
      refine ⟨s', by rw [Lib.run, hstep]; exact hrun, fun _ => ?_⟩
      by_cases hbs : bs = []
      · subst hbs
        obtain rfl := some.inj hrun
        exact hcorrect
      · exact hcorrect' hbs

/-- What is cached is right in all states of a run, the one after `init` included, exactly if `next`
was null before. -/
theorem next_correct_iff (s : TreeTimer S) {ops : List (TimerOp ι)}
    (hops : TimerOp.AllAllowed [] ops) (hfuel : 2 * ops.length < fuel) :
    (∀ bs, bs <+: ops → ∃ s', Lib.run (TreeTimer.step fuel) s.init bs = some s' ∧
      s'.NextCorrect (bs.foldl TimerOp.live [])) ↔ s.next = none := by
  constructor
  · intro hall
    obtain ⟨s', hrun, hcorrect⟩ := hall [] nil_prefix
    obtain rfl := some.inj hrun
    exact hcorrect.none_iff.mpr rfl
  · intro hnext bs hbs
    have hinv : s.init.Inv [] := ⟨[], S.holds_init s.tree, .nil, .refl _⟩
    have hrounds : 2 * (([] : List ι).length + ops.length) < fuel + 2 := by
      rw [length_nil]
      omega
    obtain ⟨s', hrun, hcorrect⟩ := hinv.run hops hrounds bs hbs
    refine ⟨s', hrun, ?_⟩
    by_cases hne : bs = []
    · subst hne
      obtain rfl := some.inj hrun
      refine ⟨iff_of_true hnext rfl, fun k hk => ?_, nextExpiryTime_eq _⟩
      exact absurd (hnext.symm.trans hk) (by simp)
    · exact hcorrect hne

end TreeTimer

open Rbtree Avltree

/-- For both kinds of timers, over memory with any contents: `next_expiry_timer` and
`next_expiry_time` are right after `init` and after every operation if and only if `next` was null
before `init`. -/
theorem tree_timers_next_iff {ops : List (TimerOp ι)} (hops : TimerOp.AllAllowed [] ops) {fuel : ℕ}
    (hfuel : 2 * ops.length < fuel) (rb : TreeTimer (rbSearchTree ι))
    (avl : TreeTimer (avlSearchTree ι)) :
    ((∀ bs, bs <+: ops → ∃ s, Lib.run (TreeTimer.step fuel) rb.init bs = some s ∧
      s.NextCorrect (bs.foldl TimerOp.live [])) ↔ rb.next = none) ∧
    ((∀ bs, bs <+: ops → ∃ s, Lib.run (TreeTimer.step fuel) avl.init bs = some s ∧
      s.NextCorrect (bs.foldl TimerOp.live [])) ↔ avl.next = none) :=
  ⟨rb.next_correct_iff hops hfuel, avl.next_correct_iff hops hfuel⟩

/-- Two timers, the first of which gets a later time, in memory with a null `next`. -/
theorem tree_timers_next_iff_modify :
    let ops : List (TimerOp ℕ) := [.add 0 5, .add 1 7, .modify 0 9, .remove 1]
    TimerOp.AllAllowed [] ops ∧
      ∀ bs, bs <+: ops → ∃ s, Lib.run (TreeTimer.step 9)
        (TreeTimer.init (⟨⟨some 3, fun _ => ⟨false, none, none, none⟩⟩, fun _ => 0,
          none⟩ : TreeTimer (rbSearchTree ℕ))) bs =
          some s ∧ s.NextCorrect (bs.foldl TimerOp.live []) := by
  intro ops
  have hops : TimerOp.AllAllowed [] ops := by
    simp [ops, TimerOp.AllAllowed, TimerOp.Allowed, TimerOp.live]
  have hiff := tree_timers_next_iff hops (show 2 * ops.length < 9 by decide)
    (⟨⟨some 3, fun _ => ⟨false, none, none, none⟩⟩, fun _ => 0, none⟩ : TreeTimer (rbSearchTree ℕ))
    (⟨⟨some 3, fun _ => ⟨0, none, none, none⟩⟩, fun _ => 0, none⟩ : TreeTimer (avlSearchTree ℕ))
  exact ⟨hops, hiff.1.mpr rfl⟩

/-- After `init` in memory with a pointer in `next` there is a cached timer, but no timer is
present. -/
theorem next_after_init_is_stale :
    (TreeTimer.init (⟨⟨none, fun _ => ⟨false, none, none, none⟩⟩, fun _ => 7, some 0⟩ :
        TreeTimer (rbSearchTree ℕ))).nextExpiryTimer = some 0 ∧
      (TreeTimer.init (⟨⟨none, fun _ => ⟨0, none, none, none⟩⟩, fun _ => 7, some 0⟩ :
        TreeTimer (avlSearchTree ℕ))).nextExpiryTime = 7 :=
  ⟨rfl, rfl⟩

end Pptk.Timer
